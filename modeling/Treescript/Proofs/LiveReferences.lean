import Treescript.Proofs.Constants
import Treescript.Proofs.Evaluations
import Treescript.Proofs.ProperTrees

/-!
# Live references

A value is live in a store that has everything it refers to. In a sound store all values that can be
come by are live, methods and operations included, so that nothing refers to what is not there.
Every way in which a run changes a store keeps it sound.
-/

namespace Treescript

def TypeRef.Live (s : Store) : TypeRef → Prop
  | .object t => t < s.objects.size
  | .enum t => t < s.enums.size
  | .form t => t < s.forms.size

def Value.Live (s : Store) : Value → Prop
  | .operation id => id < s.closures.size
  | .type t => t.Live s
  | .holder t id => t.Live s ∧ id < s.holders.size
  | .none | .bool _ | .int _ | .float _ | .text _ | .native _ => True

/-- Nothing that values refer to is taken away. -/
structure Store.Grows (s s' : Store) : Prop extends s.Extends s' where
  holders_le : s.holders.size ≤ s'.holders.size

namespace Store.Grows

variable {s s' s'' : Store}

theorem refl (s : Store) : s.Grows s := ⟨.refl s, Nat.le_refl _⟩

theorem trans (h : s.Grows s') (h' : s'.Grows s'') : s.Grows s'' :=
  ⟨h.toExtends.trans h'.toExtends, Nat.le_trans h.holders_le h'.holders_le⟩

theorem addHolder (s : Store) : s.Grows s.addHolder.1 :=
  ⟨{ Store.Extends.refl s with }, by simp [Store.addHolder]⟩

theorem setField (s : Store) (holder : Nat) (x : String) (v : Value) :
    s.Grows (s.setField holder x v) :=
  ⟨{ Store.Extends.refl s with }, by simp [Store.setField]⟩

theorem addMethods (s : Store) (scope : ScopeId) (methods : List Operation) :
    s.Grows (s.addMethods scope methods).1 := by
  refine ⟨.addMethods .., ?_⟩
  rw [Store.addMethods]
  generalize NameMap.empty = table
  induction methods generalizing s table with
  | nil => exact Nat.le_refl _
  | cons o rest ih => exact ih (s.addClosure _).1 _

end Store.Grows

theorem size_le_of_getElem? {α : Type} {xs ys : Array α}
    (h : ∀ (i : Nat) (a : α), xs[i]? = some a → ys[i]? = some a) {i : Nat} (hi : i < xs.size) :
    i < ys.size :=
  (Array.getElem?_eq_some_iff.1 (h i xs[i] (Array.getElem?_eq_getElem hi))).1

theorem TypeRef.Live.mono {s s' : Store} {t : TypeRef} (h : t.Live s) (hg : s.Grows s') :
    t.Live s' := by
  cases t with
  | object t => exact size_le_of_getElem? hg.objects h
  | «enum» t => exact size_le_of_getElem? hg.enums h
  | form t => exact size_le_of_getElem? hg.forms h

theorem Value.Live.mono {s s' : Store} {v : Value} (h : v.Live s) (hg : s.Grows s') :
    v.Live s' := by
  cases v with
  | operation id => exact size_le_of_getElem? hg.closures h
  | type t => exact TypeRef.Live.mono h hg
  | holder t id => exact ⟨h.1.mono hg, Nat.lt_of_lt_of_le h.2 hg.holders_le⟩
  | _ => trivial

theorem Value.IsConstant.live {v : Value} (h : v.IsConstant) (s : Store) : v.Live s := by
  cases v <;> trivial

/-- The value is bound by a scope, a field of a holder or a member of a form. -/
inductive Store.Contains (s : Store) (v : Value) : Prop
  | binding (i : ScopeId) (x : String) (h : s.scopes.get? i x = some v)
  | field (id : Nat) (fields : NameMap Value) (x : String) (hid : s.holders[id]? = some fields)
    (h : fields.get? x = some v)
  | member (t : Nat) (type : FormType) (x : String) (ht : s.forms[t]? = some type)
    (h : type.members.get? x = some v)

namespace Store.Contains

variable {s : Store} {w : Value}

/-- Where holders and forms are the same, only the bindings of scopes tell two stores apart. -/
theorem of_bindings {s' : Store} (h : s'.Contains w) (hholders : s'.holders = s.holders)
    (hforms : s'.forms = s.forms) (hscopes : ∀ i x, s'.scopes.get? i x = s.scopes.get? i x) :
    s.Contains w := by
  cases h with
  | binding i x h => exact .binding i x (hscopes i x ▸ h)
  | field id fields x hid h => exact .field id fields x (hholders ▸ hid) h
  | member t type x ht h => exact .member t type x (hforms ▸ ht) h

theorem define_cases {i : ScopeId} {x : String} {v : Value} (h : (s.define i x v).Contains w) :
    s.Contains w ∨ w = v := by
  cases h with
  | binding j y hy =>
    rcases Scopes.get?_define_cases _ hy with ⟨-, -, rfl⟩ | hold
    · exact .inr rfl
    · exact .inl (.binding j y hold)
  | field id fields y hid hy => exact .inl (.field id fields y hid hy)
  | member t type y ht hy => exact .inl (.member t type y ht hy)

theorem addForm_cases {t : FormType} (h : (s.addForm t).1.Contains w) :
    s.Contains w ∨ ∃ x, t.members.get? x = some w := by
  cases h with
  | binding j y hy => exact .inl (.binding j y hy)
  | field id fields y hid hy => exact .inl (.field id fields y hid hy)
  | member u type y hu hy =>
    simp only [Store.addForm, Array.getElem?_push] at hu
    split at hu
    · cases hu
      exact .inr ⟨y, hy⟩
    · exact .inl (.member u type y hu hy)

/-- A new holder has no fields. -/
theorem of_addHolder (h : s.addHolder.1.Contains w) : s.Contains w := by
  cases h with
  | binding j y hy => exact .binding j y hy
  | field id fields y hid hy =>
    simp only [Store.addHolder, Array.getElem?_push] at hid
    split at hid
    · cases hid
      cases hy
    · exact .field id fields y hid hy
  | member t type y ht hy => exact .member t type y ht hy

theorem setField_cases {holder : Nat} {x : String} {v : Value}
    (h : (s.setField holder x v).Contains w) : s.Contains w ∨ w = v := by
  cases h with
  | binding j y hy => exact .inl (.binding j y hy)
  | field id fields y hid hy =>
    simp only [Store.setField, Array.getElem?_modify] at hid
    split at hid
    · obtain ⟨old, hold, rfl⟩ := Option.map_eq_some_iff.1 hid
      rw [NameMap.get?_insert] at hy
      split at hy
      · cases hy
        exact .inr rfl
      · exact .inl (.field id old y hold hy)
    · exact .inl (.field id fields y hid hy)
  | member t type y ht hy => exact .inl (.member t type y ht hy)

end Store.Contains

/-- The scope of an operation is there. If the text of operations is watched, it is proper. -/
structure Closure.Sound (strict : Prop) (s : Store) (c : Closure) : Prop where
  scope_lt : c.scope < s.scopes.size
  proper : strict → c.declaration.Proper

structure Store.Sound (strict : Prop) (s : Store) : Prop where
  values : ∀ v, s.Contains v → v.Live s
  closures : ∀ (id : Nat) (c : Closure), s.closures[id]? = some c → c.Sound strict s
  methods : ∀ (t : Nat) (type : ObjectType) (x : String) (id : Nat), s.objects[t]? = some type →
    type.methods.get? x = some id → id < s.closures.size

variable {strict : Prop}

theorem Closure.Sound.mono {s s' : Store} {c : Closure} (h : c.Sound strict s) (hg : s.Grows s') :
    c.Sound strict s' :=
  ⟨Nat.lt_of_lt_of_le h.scope_lt hg.scopes_le, h.proper⟩

namespace Store.Sound

variable {s : Store}

/-- A step that adds neither operations nor object types: only its values have to be looked at. -/
theorem of_values {s' : Store} (h : s.Sound strict) (hg : s.Grows s')
    (hclosures : s'.closures = s.closures) (hobjects : s'.objects = s.objects)
    (hvalues : ∀ v, s'.Contains v → s.Contains v ∨ v.Live s') : s'.Sound strict where
  values v hv := (hvalues v hv).elim (fun hold => (h.values v hold).mono hg) id
  closures id c hc := (h.closures id c (hclosures ▸ hc)).mono hg
  methods t type x id ht hx := hclosures ▸ h.methods t type x id (hobjects ▸ ht) hx

theorem define (h : s.Sound strict) (i : ScopeId) (x : String) {v : Value} (hv : v.Live s) :
    (s.define i x v).Sound strict := by
  have hg : s.Grows (s.define i x v) := ⟨.define .., Nat.le_refl _⟩
  refine h.of_values hg rfl rfl fun w hw => hw.define_cases.imp_right ?_
  rintro rfl
  exact hv.mono hg

theorem enterScope (h : s.Sound strict) (outer : ScopeId) :
    (s.enterScope outer).1.Sound strict := by
  refine h.of_values ⟨.enterScope .., Nat.le_refl _⟩ rfl rfl fun w hw => .inl ?_
  exact hw.of_bindings rfl rfl fun _ _ => Scopes.get?_push ..

theorem defineAll (h : s.Sound strict) (i : ScopeId) {entries : List (String × Value)}
    (hv : ∀ entry ∈ entries, entry.2.Live s) :
    Store.Sound strict { s with scopes := s.scopes.defineAll i entries } := by
  induction entries generalizing s with
  | nil => exact h
  | cons entry rest ih =>
    have hrest : ∀ entry ∈ rest, entry.2.Live s := fun e he => hv e (List.mem_cons_of_mem _ he)
    exact ih (h.define i entry.1 (hv entry List.mem_cons_self)) hrest

theorem addClosure (h : s.Sound strict) {c : Closure} (hc : c.Sound strict s) :
    (s.addClosure c).1.Sound strict := by
  have hg : s.Grows (s.addClosure c).1 := ⟨.addClosure .., Nat.le_refl _⟩
  constructor
  · exact fun v hv => (h.values v (hv.of_bindings rfl rfl fun _ _ => rfl)).mono hg
  · intro id d hd
    simp only [Store.addClosure, Array.getElem?_push] at hd
    split at hd
    · cases hd
      exact hc.mono hg
    · exact (h.closures id d hd).mono hg
  · intro t type x id ht hx
    have hlt := h.methods t type x id ht hx
    simp only [Store.addClosure, Array.size_push]
    omega

theorem addObject (h : s.Sound strict) {t : ObjectType}
    (ht : ∀ x id, t.methods.get? x = some id → id < s.closures.size) :
    (s.addObject t).1.Sound strict := by
  have hg : s.Grows (s.addObject t).1 := ⟨.addObject .., Nat.le_refl _⟩
  constructor
  · exact fun v hv => (h.values v (hv.of_bindings rfl rfl fun _ _ => rfl)).mono hg
  · exact fun id c hc => (h.closures id c hc).mono hg
  · intro u type x id hu hx
    simp only [Store.addObject, Array.getElem?_push] at hu
    split at hu
    · cases hu
      exact ht x id hx
    · exact h.methods u type x id hu hx

theorem addEnum (h : s.Sound strict) (t : EnumType) : (s.addEnum t).1.Sound strict := by
  refine h.of_values ⟨.addEnum .., Nat.le_refl _⟩ rfl rfl fun w hw => .inl ?_
  exact hw.of_bindings rfl rfl fun _ _ => rfl

theorem addForm (h : s.Sound strict) {t : FormType}
    (ht : ∀ x v, t.members.get? x = some v → v.Live s) : (s.addForm t).1.Sound strict := by
  have hg : s.Grows (s.addForm t).1 := ⟨.addForm .., Nat.le_refl _⟩
  refine h.of_values hg rfl rfl fun w hw => hw.addForm_cases.imp_right ?_
  rintro ⟨x, hx⟩
  exact (ht x w hx).mono hg

theorem addHolder (h : s.Sound strict) : s.addHolder.1.Sound strict :=
  h.of_values (.addHolder s) rfl rfl fun _ hw => .inl hw.of_addHolder

theorem setField (h : s.Sound strict) (holder : Nat) (x : String) {v : Value} (hv : v.Live s) :
    (s.setField holder x v).Sound strict := by
  have hg : s.Grows (s.setField holder x v) := .setField ..
  refine h.of_values hg rfl rfl fun w hw => hw.setField_cases.imp_right ?_
  rintro rfl
  exact hv.mono hg

theorem bindSelf (h : s.Sound strict) {c : Closure} (hc : c.Sound strict s) {v : Value}
    (hv : v.Live s) : (s.bindSelf c v).1.Sound strict := by
  have hg : s.Grows (s.enterScope c.scope).1 := ⟨.enterScope .., Nat.le_refl _⟩
  refine ((h.enterScope c.scope).define _ selfName (hv.mono hg)).addClosure ⟨?_, hc.proper⟩
  simp [Store.define, Store.enterScope, Scopes.enter]

theorem addMethods (h : s.Sound strict) {scope : ScopeId} (hscope : scope < s.scopes.size)
    {methods : List Operation} (hproper : strict → Operation.ProperList methods) :
    (s.addMethods scope methods).1.Sound strict ∧
      ∀ x id, (s.addMethods scope methods).2.get? x = some id →
        id < (s.addMethods scope methods).1.closures.size := by
  have htable : ∀ x id, NameMap.empty.get? x = some id → id < s.closures.size := nofun
  rw [Store.addMethods]
  -- the table grows with the operations, so this is shown for any table to begin with
  generalize NameMap.empty = table at htable
  induction methods generalizing s table with
  | nil => exact ⟨h, htable⟩
  | cons o rest ih =>
    have hadd : (s.addClosure ⟨o, scope, o.name.text == pilotName⟩).1.Sound strict :=
      h.addClosure ⟨hscope, fun hs => (hproper hs).1⟩
    refine ih hadd hscope (fun hs => (hproper hs).2) _ fun x id hx => ?_
    rw [NameMap.get?_insert] at hx
    simp only [Store.addClosure, Array.size_push]
    split at hx
    · cases hx
      exact Nat.lt_succ_self _
    · exact Nat.lt_succ_of_lt (htable x id hx)

end Store.Sound

/-- The operation that a type is called through is there, if the type is. -/
theorem Store.Sound.pilot?_lt {s : Store} (h : s.Sound strict) {t : TypeRef} {pilot : Nat}
    (hpilot : s.pilot? t = some pilot) : pilot < s.closures.size := by
  cases t with
  | object t =>
    obtain ⟨type, htype, hmethod⟩ := Option.bind_eq_some_iff.1 hpilot
    exact h.methods t type pilotName pilot htype hmethod
  | «enum» t => cases hpilot
  | form t => cases hpilot

structure Machine.Sound (strict : Prop) (m : Machine) : Prop where
  store : m.store.Sound strict
  globals_lt : m.globals < m.store.scopes.size
  current_lt : m.current < m.store.scopes.size

/-- The second machine is sound, and a later one than the first. -/
structure Machine.Proceeds (strict : Prop) (m m' : Machine) : Prop where
  grows : m.store.Grows m'.store
  sound : m'.Sound strict

namespace Machine.Proceeds

variable {m m' m'' : Machine}

theorem refl (h : m.Sound strict) : m.Proceeds strict m := ⟨.refl _, h⟩

theorem trans (h : m.Proceeds strict m') (h' : m'.Proceeds strict m'') : m.Proceeds strict m'' :=
  ⟨h.grows.trans h'.grows, h'.sound⟩

/-- Only the store changes. -/
theorem of_store (h : m.Sound strict) {s : Store} (hg : m.store.Grows s) (hs : s.Sound strict) :
    m.Proceeds strict { m with store := s } :=
  ⟨hg, hs, Nat.lt_of_lt_of_le h.globals_lt hg.scopes_le,
    Nat.lt_of_lt_of_le h.current_lt hg.scopes_le⟩

theorem define (h : m.Sound strict) (i : ScopeId) (x : String) {v : Value} (hv : v.Live m.store) :
    m.Proceeds strict { m with store := m.store.define i x v } :=
  of_store h ⟨.define .., Nat.le_refl _⟩ (h.store.define i x hv)

theorem addHolder (h : m.Sound strict) : m.Proceeds strict m.addHolder :=
  of_store h (.addHolder m.store) h.store.addHolder

theorem bindSelf (h : m.Sound strict) {c : Closure} (hc : c.Sound strict m.store) {v : Value}
    (hv : v.Live m.store) : m.Proceeds strict (m.bindSelf c v) :=
  of_store h ⟨.bindSelf .., Nat.le_refl _⟩ (h.store.bindSelf hc hv)

/-- Going into a new scope. -/
theorem enter (h : m.Sound strict) (outer : ScopeId) {bindings : List (String × Value)}
    (hv : ∀ b ∈ bindings, b.2.Live m.store) : m.Proceeds strict (m.enter outer bindings) := by
  have hg : m.store.Grows (m.enter outer bindings).store :=
    ⟨(Store.Extends.enterScope m.store outer).trans (.defineAll ..), Nat.le_refl _⟩
  have hs := (h.store.enterScope outer).defineAll m.store.scopes.size hv
  refine ⟨hg, hs, Nat.lt_of_lt_of_le h.globals_lt hg.scopes_le, ?_⟩
  have hsize : (m.store.enterScope outer).1.scopes.size = m.store.scopes.size + 1 :=
    Scopes.size_push ..
  have hle := (Store.Extends.defineAll (m.store.enterScope outer).1 m.store.scopes.size
    bindings).scopes_le
  exact Nat.lt_of_lt_of_le (hsize ▸ Nat.lt_succ_self _) hle

end Machine.Proceeds

end Treescript
