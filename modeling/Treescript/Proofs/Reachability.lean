import Treescript.Proofs.LiveReferences

/-!
# What can be reached

From a value one comes to operations, types and holders, from these to scopes and to further values,
and from a scope to the scopes around it. A region that nothing leads out of, and that has room for
whatever is still to be made, stays so as long as only what is in it is written.
-/

namespace Treescript

/-- Whatever a value can refer to, and scopes. -/
inductive Location where
  | scope (id : ScopeId)
  | operation (id : Nat)
  | type (t : TypeRef)
  | holder (id : Nat)

inductive Value.Mentions : Value → Location → Prop
  | operation (id : Nat) : Mentions (.operation id) (.operation id)
  | type (t : TypeRef) : Mentions (.type t) (.type t)
  | holder (t : TypeRef) (id : Nat) : Mentions (.holder t id) (.holder id)
  | holderType (t : TypeRef) (id : Nat) : Mentions (.holder t id) (.type t)

/-- One step from a location to another that it refers to. -/
inductive Store.Points (s : Store) : Location → Location → Prop
  | outer {i o : ScopeId} (h : s.scopes.outer? i = some o) : Points s (.scope i) (.scope o)
  | binding {i : ScopeId} {x : String} {v : Value} {l : Location}
    (h : s.scopes.get? i x = some v) (hl : v.Mentions l) : Points s (.scope i) l
  | closure {id : Nat} {c : Closure} (h : s.closures[id]? = some c) :
    Points s (.operation id) (.scope c.scope)
  | method {t : Nat} {type : ObjectType} {x : String} {id : Nat} (h : s.objects[t]? = some type)
    (hx : type.methods.get? x = some id) : Points s (.type (.object t)) (.operation id)
  | member {t : Nat} {type : FormType} {x : String} {v : Value} {l : Location}
    (h : s.forms[t]? = some type) (hx : type.members.get? x = some v) (hl : v.Mentions l) :
    Points s (.type (.form t)) l
  | field {id : Nat} {fields : NameMap Value} {x : String} {v : Value} {l : Location}
    (h : s.holders[id]? = some fields) (hx : fields.get? x = some v) (hl : v.Mentions l) :
    Points s (.holder id) l

inductive Store.Reaches (s : Store) (roots : Location → Prop) : Location → Prop
  | root {l : Location} (h : roots l) : Reaches s roots l
  | step {l l' : Location} (h : Reaches s roots l) (hp : s.Points l l') : Reaches s roots l'

/-- The location is not there yet. -/
def Location.IsNew (s : Store) : Location → Prop
  | scope id => s.scopes.size ≤ id
  | operation id => s.closures.size ≤ id
  | type (.object t) => s.objects.size ≤ t
  | type (.enum t) => s.enums.size ≤ t
  | type (.form t) => s.forms.size ≤ t
  | holder id => s.holders.size ≤ id

theorem Location.IsNew.of_grows {s s' : Store} {l : Location} (h : l.IsNew s')
    (hg : s.Grows s') : l.IsNew s := by
  cases l with
  | scope id => exact Nat.le_trans hg.scopes_le h
  | operation id =>
    exact Nat.not_lt.1 fun hid => Nat.not_lt.2 h (size_le_of_getElem? hg.closures hid)
  | holder id => exact Nat.le_trans hg.holders_le h
  | type t =>
    cases t with
    | object t => exact Nat.not_lt.1 fun ht => Nat.not_lt.2 h (size_le_of_getElem? hg.objects ht)
    | «enum» t => exact Nat.not_lt.1 fun ht => Nat.not_lt.2 h (size_le_of_getElem? hg.enums ht)
    | form t => exact Nat.not_lt.1 fun ht => Nat.not_lt.2 h (size_le_of_getElem? hg.forms ht)

variable {A : Location → Prop}

def Value.In (A : Location → Prop) (v : Value) : Prop := ∀ l, v.Mentions l → A l

theorem Value.IsConstant.isIn {v : Value} (h : v.IsConstant) : v.In A := by
  intro l hl
  cases hl <;> exact h.elim

theorem Value.in_none : Value.none.In A := Value.IsConstant.isIn trivial

theorem Value.in_operation {id : Nat} : (Value.operation id).In A ↔ A (.operation id) := by
  constructor
  · exact fun h => h _ (.operation id)
  · rintro h _ ⟨⟩
    exact h

theorem Value.in_type {t : TypeRef} : (Value.type t).In A ↔ A (.type t) := by
  constructor
  · exact fun h => h _ (.type t)
  · rintro h _ ⟨⟩
    exact h

theorem Value.in_holder {t : TypeRef} {id : Nat} :
    (Value.holder t id).In A ↔ A (.holder id) ∧ A (.type t) := by
  constructor
  · exact fun h => ⟨h _ (.holder t id), h _ (.holderType t id)⟩
  · rintro ⟨hid, ht⟩ _ (_ | _)
    · exact hid
    · exact ht

/-- Nothing leads out of the region, and whatever is still to be made is going to be in it. -/
structure Store.Seals (A : Location → Prop) (s : Store) : Prop where
  outer : ∀ i o, A (.scope i) → s.scopes.outer? i = some o → A (.scope o)
  bindings : ∀ i x v, A (.scope i) → s.scopes.get? i x = some v → v.In A
  closures : ∀ (id : Nat) (c : Closure), A (.operation id) → s.closures[id]? = some c →
    A (.scope c.scope)
  methods : ∀ (t : Nat) (type : ObjectType) (x : String) (id : Nat), A (.type (.object t)) →
    s.objects[t]? = some type → type.methods.get? x = some id → A (.operation id)
  members : ∀ (t : Nat) (type : FormType) (x : String) (v : Value), A (.type (.form t)) →
    s.forms[t]? = some type → type.members.get? x = some v → v.In A
  fields : ∀ (id : Nat) (fields : NameMap Value) (x : String) (v : Value), A (.holder id) →
    s.holders[id]? = some fields → fields.get? x = some v → v.In A
  fresh : ∀ l, l.IsNew s → A l

/-- The second store is a later one, in which the region is sealed and whatever is outside of it is
as it was. -/
structure Store.Keeps (A : Location → Prop) (s s' : Store) : Prop extends s.Grows s' where
  seals : s'.Seals A
  scopes : ∀ i < s.scopes.size, ¬A (.scope i) → s'.scopes.cells[i]? = s.scopes.cells[i]?
  holders : ∀ id < s.holders.size, ¬A (.holder id) → s'.holders[id]? = s.holders[id]?

/-- What can be reached from somewhere, together with all that is not there yet. -/
theorem Store.seals_reaches (s : Store) (roots : Location → Prop) :
    s.Seals fun l => s.Reaches roots l ∨ l.IsNew s where
  outer i o hi ho := by
    rcases hi with hi | hi
    · exact .inl (hi.step (.outer ho))
    · simp only [Location.IsNew] at hi
      simp [Scopes.outer?, Array.getElem?_eq_none hi] at ho
  bindings i x v hi hv := by
    rcases hi with hi | hi
    · exact fun l hl => .inl (hi.step (.binding hv hl))
    · simp only [Location.IsNew] at hi
      simp [Scopes.get?, Array.getElem?_eq_none hi] at hv
  closures id c hid hc := by
    rcases hid with hid | hid
    · exact .inl (hid.step (.closure hc))
    · simp only [Location.IsNew] at hid
      simp [Array.getElem?_eq_none hid] at hc
  methods t type x id ht htype hx := by
    rcases ht with ht | ht
    · exact .inl (ht.step (.method htype hx))
    · simp only [Location.IsNew] at ht
      simp [Array.getElem?_eq_none ht] at htype
  members t type x v ht htype hx := by
    rcases ht with ht | ht
    · exact fun l hl => .inl (ht.step (.member htype hx hl))
    · simp only [Location.IsNew] at ht
      simp [Array.getElem?_eq_none ht] at htype
  fields id fields x v hid hfields hx := by
    rcases hid with hid | hid
    · exact fun l hl => .inl (hid.step (.field hfields hx hl))
    · simp only [Location.IsNew] at hid
      simp [Array.getElem?_eq_none hid] at hfields
  fresh l hl := .inr hl

namespace Store.Seals

variable {s : Store}

theorem ancestor? (h : s.Seals A) (hops : Nat) {i o : ScopeId} (hi : A (.scope i))
    (ho : s.scopes.ancestor? hops i = some o) : A (.scope o) := by
  induction hops generalizing i with
  | zero =>
    cases ho
    exact hi
  | succ hops ih =>
    obtain ⟨j, hj, ho⟩ := Option.bind_eq_some_iff.1 ho
    exact ih (h.outer i j hi hj) ho

theorem resolve? (h : s.Seals A) (i : ScopeId) (x : String) {v : Value} (hi : A (.scope i))
    (hv : s.scopes.resolve? i x = some v) : v.In A := by
  fun_induction Scopes.resolve? s.scopes i x with
  | case1 i w hw =>
    cases hv
    exact h.bindings i x _ hi hw
  | case2 => cases hv
  | case3 i _ o ho _ ih => exact ih (h.outer i o hi ho) hv

theorem pilot? (h : s.Seals A) {t : TypeRef} {pilot : Nat} (ht : A (.type t))
    (hpilot : s.pilot? t = some pilot) : A (.operation pilot) := by
  cases t with
  | object t =>
    obtain ⟨type, htype, hmethod⟩ := Option.bind_eq_some_iff.1 hpilot
    exact h.methods t type pilotName pilot ht htype hmethod
  | «enum» t => cases hpilot
  | form t => cases hpilot

end Store.Seals

namespace Store.Keeps

variable {s s' s'' : Store}

theorem refl (h : s.Seals A) : s.Keeps A s :=
  ⟨.refl s, h, fun _ _ _ => rfl, fun _ _ _ => rfl⟩

theorem trans (h : s.Keeps A s') (h' : s'.Keeps A s'') : s.Keeps A s'' where
  toGrows := h.toGrows.trans h'.toGrows
  seals := h'.seals
  scopes i hi hA := (h'.scopes i (Nat.lt_of_lt_of_le hi h.scopes_le) hA).trans (h.scopes i hi hA)
  holders id hid hA :=
    (h'.holders id (Nat.lt_of_lt_of_le hid h.holders_le) hA).trans (h.holders id hid hA)

theorem define (h : s.Seals A) {i : ScopeId} (hi : A (.scope i)) (x : String) {v : Value}
    (hv : v.In A) : s.Keeps A (s.define i x v) := by
  have hg : s.Grows (s.define i x v) := ⟨.define .., Nat.le_refl _⟩
  refine ⟨hg, { h with outer := ?_, bindings := ?_, fresh := ?_ }, ?_, fun _ _ _ => rfl⟩
  · intro j o hj ho
    rw [Store.define, Scopes.outer?_define] at ho
    exact h.outer j o hj ho
  · intro j y w hj hw
    rcases Scopes.get?_define_cases _ hw with ⟨-, -, rfl⟩ | hold
    · exact hv
    · exact h.bindings j y w hj hold
  · exact fun l hl => h.fresh l (hl.of_grows hg)
  · intro j _ hA
    have hne : i ≠ j := by
      rintro rfl
      exact hA hi
    simp [Store.define, Scopes.define, Array.getElem?_modify, hne]

theorem enterScope (h : s.Seals A) {outer : ScopeId} (ho : A (.scope outer)) :
    s.Keeps A (s.enterScope outer).1 := by
  have hg : s.Grows (s.enterScope outer).1 := ⟨.enterScope .., Nat.le_refl _⟩
  refine ⟨hg, { h with outer := ?_, bindings := ?_, fresh := ?_ }, ?_, fun _ _ _ => rfl⟩
  · intro i o hi hio
    by_cases hlt : i < s.scopes.size
    · exact h.outer i o hi (hg.outer i hlt ▸ hio)
    · -- the new scope is inside the given one, if that is there
      simp only [Store.enterScope, Scopes.enter, Scopes.outer?, Scopes.push, Array.getElem?_push]
        at hio
      split at hio
      · obtain ⟨rfl, -⟩ : outer = o ∧ o < s.scopes.cells.size := by
          simpa [Option.filter_eq_some_iff] using hio
        exact ho
      · exact h.outer i o hi hio
  · intro i x v hi hv
    rw [Store.enterScope, Scopes.enter, Scopes.get?_push] at hv
    exact h.bindings i x v hi hv
  · exact fun l hl => h.fresh l (hl.of_grows hg)
  · intro i hi _
    have hne : i ≠ s.scopes.cells.size := Nat.ne_of_lt hi
    simp [Store.enterScope, Scopes.enter, Scopes.push, Array.getElem?_push, hne]

theorem defineAll (h : s.Seals A) {i : ScopeId} (hi : A (.scope i))
    {entries : List (String × Value)} (hv : ∀ entry ∈ entries, entry.2.In A) :
    s.Keeps A { s with scopes := s.scopes.defineAll i entries } := by
  induction entries generalizing s with
  | nil => exact refl h
  | cons entry rest ih =>
    have hfirst : s.Keeps A (s.define i entry.1 entry.2) :=
      define h hi entry.1 (hv entry List.mem_cons_self)
    exact hfirst.trans (ih hfirst.seals fun e he => hv e (List.mem_cons_of_mem _ he))

theorem addClosure (h : s.Seals A) {c : Closure} (hc : A (.scope c.scope)) :
    s.Keeps A (s.addClosure c).1 := by
  have hg : s.Grows (s.addClosure c).1 := ⟨.addClosure .., Nat.le_refl _⟩
  refine ⟨hg, { h with closures := ?_, fresh := fun l hl => h.fresh l (hl.of_grows hg) },
    fun _ _ _ => rfl, fun _ _ _ => rfl⟩
  intro id d hid hd
  simp only [Store.addClosure, Array.getElem?_push] at hd
  split at hd
  · cases hd
    exact hc
  · exact h.closures id d hid hd

theorem addObject (h : s.Seals A) {t : ObjectType}
    (ht : ∀ x id, t.methods.get? x = some id → A (.operation id)) :
    s.Keeps A (s.addObject t).1 := by
  have hg : s.Grows (s.addObject t).1 := ⟨.addObject .., Nat.le_refl _⟩
  refine ⟨hg, { h with methods := ?_, fresh := fun l hl => h.fresh l (hl.of_grows hg) },
    fun _ _ _ => rfl, fun _ _ _ => rfl⟩
  intro u type x id hu htype hx
  simp only [Store.addObject, Array.getElem?_push] at htype
  split at htype
  · cases htype
    exact ht x id hx
  · exact h.methods u type x id hu htype hx

theorem addEnum (h : s.Seals A) (t : EnumType) : s.Keeps A (s.addEnum t).1 := by
  have hg : s.Grows (s.addEnum t).1 := ⟨.addEnum .., Nat.le_refl _⟩
  exact ⟨hg, { h with fresh := fun l hl => h.fresh l (hl.of_grows hg) }, fun _ _ _ => rfl,
    fun _ _ _ => rfl⟩

theorem addForm (h : s.Seals A) {t : FormType} (ht : ∀ x v, t.members.get? x = some v → v.In A) :
    s.Keeps A (s.addForm t).1 := by
  have hg : s.Grows (s.addForm t).1 := ⟨.addForm .., Nat.le_refl _⟩
  refine ⟨hg, { h with members := ?_, fresh := fun l hl => h.fresh l (hl.of_grows hg) },
    fun _ _ _ => rfl, fun _ _ _ => rfl⟩
  intro u type x v hu htype hx
  simp only [Store.addForm, Array.getElem?_push] at htype
  split at htype
  · cases htype
    exact ht x v hx
  · exact h.members u type x v hu htype hx

theorem addHolder (h : s.Seals A) : s.Keeps A s.addHolder.1 := by
  have hg : s.Grows s.addHolder.1 := .addHolder s
  refine ⟨hg, { h with fields := ?_, fresh := fun l hl => h.fresh l (hl.of_grows hg) },
    fun _ _ _ => rfl, ?_⟩
  · intro id fields x v hid hfields hx
    simp only [Store.addHolder, Array.getElem?_push] at hfields
    split at hfields
    · cases hfields
      cases hx
    · exact h.fields id fields x v hid hfields hx
  · intro id hid _
    simp [Store.addHolder, Array.getElem?_push, Nat.ne_of_lt hid]

theorem setField (h : s.Seals A) {holder : Nat} (hholder : A (.holder holder)) (x : String)
    {v : Value} (hv : v.In A) : s.Keeps A (s.setField holder x v) := by
  have hg : s.Grows (s.setField holder x v) := .setField ..
  refine ⟨hg, { h with fields := ?_, fresh := fun l hl => h.fresh l (hl.of_grows hg) },
    fun _ _ _ => rfl, ?_⟩
  · intro id fields y w hid hfields hy
    simp only [Store.setField, Array.getElem?_modify] at hfields
    split at hfields
    · obtain ⟨old, hold, rfl⟩ := Option.map_eq_some_iff.1 hfields
      rw [NameMap.get?_insert] at hy
      split at hy
      · cases hy
        exact hv
      · exact h.fields id old y w hid hold hy
    · exact h.fields id fields y w hid hfields hy
  · intro id _ hA
    have hne : holder ≠ id := by
      rintro rfl
      exact hA hholder
    simp [Store.setField, Array.getElem?_modify, hne]

theorem bindSelf (h : s.Seals A) {c : Closure} (hc : A (.scope c.scope)) {v : Value}
    (hv : v.In A) : s.Keeps A (s.bindSelf c v).1 := by
  have hscope : A (.scope s.scopes.size) := h.fresh _ (Nat.le_refl _)
  have hentered : s.Keeps A (s.enterScope c.scope).1 := enterScope h hc
  have hdefined := define hentered.seals hscope selfName hv
  exact (hentered.trans hdefined).trans (addClosure hdefined.seals hscope)

theorem addMethods (h : s.Seals A) {scope : ScopeId} (hscope : A (.scope scope))
    (methods : List Operation) :
    s.Keeps A (s.addMethods scope methods).1 ∧
      ∀ x id, (s.addMethods scope methods).2.get? x = some id → A (.operation id) := by
  have htable : ∀ x id, NameMap.empty.get? x = some id → A (.operation id) := nofun
  rw [Store.addMethods]
  -- the table grows with the operations, so this is shown for any table to begin with
  generalize NameMap.empty = table at htable
  induction methods generalizing s table with
  | nil => exact ⟨refl h, htable⟩
  | cons o rest ih =>
    have hadd : s.Keeps A (s.addClosure ⟨o, scope, o.name.text == pilotName⟩).1 :=
      addClosure h hscope
    have hnext : ∀ x id, (table.insert o.name.text s.closures.size).get? x = some id →
        A (.operation id) := by
      intro x id hx
      rw [NameMap.get?_insert] at hx
      split at hx
      · cases hx
        exact h.fresh _ (Nat.le_refl _)
      · exact htable x id hx
    obtain ⟨hkeeps, hresult⟩ := ih hadd.seals _ hnext
    exact ⟨hadd.trans hkeeps, hresult⟩

end Store.Keeps

end Treescript
