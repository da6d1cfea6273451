import Treescript.Proofs.ScopeFrames
import Treescript.Proofs.SelfScopes

/-!
# Receivers

Where `self` comes from. Only the binding of a method makes a scope that binds `self`, and nothing
ever writes to it in programs that give the name `self` to nothing of their own. So of each such
scope it can be said which operation it was made for, at which earlier moment, and what its
receiver is; and every scope right inside it is a call of that operation.
-/

namespace Treescript

/-- The operation `id` was made in the course of an evaluation that began at the moment, with `self`
bound to the receiver. -/
inductive Moment.Binds (y : Moment) (id : Nat) (receiver : Value) : Prop
  /-- A property is read from the receiver, and is a method of it. -/
  | read {object : Expr} {name : Token} {fuel : Nat} {m : Machine} {of : TypeRef} {i : Nat} :
      y.sight = .node (.expr (.get object name)) → receiver = .holder of i →
      (object.eval fuel).run y.state.machine = (.ok receiver, m) →
      ((Run.getProperty of i name).run m).1 = .ok (.operation id) →
      id = m.store.closures.size → Moment.Binds y id receiver
  /-- A type is called, and its pilot is bound to the new receiver. -/
  | created {callee : Expr} {paren : Token} {args : List Expr} {fuel : Nat} {t : TypeRef}
      {values : List Value} {m₁ m₂ : Machine} {pilot : Nat} {c : Closure} :
      y.sight = .node (.expr (.call callee paren args)) →
      receiver = .holder t m₂.store.holders.size →
      (callee.eval fuel).run y.state.machine = (.ok (.type t), m₁) →
      (Expr.evalList fuel args).run m₁ = (.ok values, m₂) → m₂.store.pilot? t = some pilot →
      m₂.store.closures[pilot]? = some c → (m₂.store.addHolder.1.bindSelf c receiver).2 = id →
      Moment.Binds y id receiver

/-- Nothing in the texts declares `self` or writes to it. -/
def Texts.Selfless (T : Texts) : Prop := ∀ v, T.visits v → ¬v.NamesSelf

namespace World

/-- The label is that of a call of an operation that lies in the scope. -/
def Calls (w : World) (scope : ScopeId) (regions : List Region) : Prop :=
  ∃ id c, w.store.closures[id]? = some c ∧ c.scope = scope ∧
    regions = ((w.origins id).place.operation c.declaration).regions

section

variable (T : Texts)

/-- The operation is a method of the texts, bound to a receiver at one of the moments. -/
def Received (w : World) (past : List Moment) (id : Nat) (c : Closure) : Prop :=
  T.visits ⟨.method c.declaration, (w.origins id).place⟩ ∧
    ∃ t i, w.scopes.get? c.scope selfName = some (.holder (.object t) i) ∧
      ∃ y ∈ past, y.Binds id (.holder (.object t) i)

/-- The operation is a method of the texts, and lies in a scope without a receiver. -/
def Unbound (w : World) (id : Nat) : Prop :=
  ∃ c, w.store.closures[id]? = some c ∧ ¬w.Binds c.scope selfName ∧
    T.visits ⟨.method c.declaration, (w.origins id).place⟩

/-- Every scope that binds `self` is accounted for by what happened in the past. -/
structure Manned (w : World) (past : List Moment) : Prop where
  scope_lt : ∀ (id : Nat) (c : Closure), w.store.closures[id]? = some c → c.scope < w.scopes.size
  visits : ∀ (id : Nat) (c : Closure), w.store.closures[id]? = some c →
    ∀ v ∈ c.declaration.visits (w.origins id).place, T.visits v
  received : ∀ (id : Nat) (c : Closure), w.store.closures[id]? = some c →
    w.Binds c.scope selfName → w.Received T past id c
  unique : ∀ (id id' : Nat) (c c' : Closure), w.store.closures[id]? = some c →
    w.store.closures[id']? = some c' → w.Binds c.scope selfName → c'.scope = c.scope → id' = id
  calls : ∀ i o, w.scopes.outer? i = some o → w.Binds o selfName → w.Calls o (w.regions i)
  bound : ∀ i < w.scopes.size, ∀ region outer, w.regions i = region :: outer →
    selfName ∈ region.names → w.Binds i selfName
  methods : ∀ type ∈ w.store.objects, ∀ x id, type.methods.get? x = some id → w.Unbound T id

end

end World

/-- Operations and object types stay as they are, and so do scopes but for variables other than
`self`. -/
structure Store.Quiet (s s' : Store) : Prop where
  closures : s'.closures = s.closures
  objects : s'.objects = s.objects
  size : s'.scopes.size = s.scopes.size
  outer : ∀ i, s'.scopes.outer? i = s.scopes.outer? i
  self : ∀ i, s'.scopes.get? i selfName = s.scopes.get? i selfName

namespace Store.Quiet

theorem refl (s : Store) : s.Quiet s := ⟨rfl, rfl, rfl, fun _ => rfl, fun _ => rfl⟩

theorem trans {s₁ s₂ s₃ : Store} (h : s₁.Quiet s₂) (h' : s₂.Quiet s₃) : s₁.Quiet s₃ where
  closures := h'.closures.trans h.closures
  objects := h'.objects.trans h.objects
  size := h'.size.trans h.size
  outer i := (h'.outer i).trans (h.outer i)
  self i := (h'.self i).trans (h.self i)

theorem define (s : Store) (i : ScopeId) {x : String} (hx : x ≠ selfName) (v : Value) :
    s.Quiet (s.define i x v) := by
  refine ⟨rfl, rfl, Scopes.size_define .., fun j => Scopes.outer?_define .., fun j => ?_⟩
  rw [Store.define, Scopes.get?_define, if_neg]
  exact fun hc => hx hc.2.1.symm

theorem defineAll (s : Store) (i : ScopeId) {entries : List (String × Value)}
    (hx : ∀ entry ∈ entries, entry.1 ≠ selfName) :
    s.Quiet { s with scopes := s.scopes.defineAll i entries } := by
  induction entries generalizing s with
  | nil => exact refl s
  | cons entry rest ih =>
    obtain ⟨hentry, hrest⟩ := List.forall_mem_cons.1 hx
    exact (define s i hentry entry.2).trans (ih _ hrest)

end Store.Quiet

namespace World

/-- The scopes that are there have the `self` that they had. -/
structure Steady (w w' : World) : Prop where
  scopes_le : w.scopes.size ≤ w'.scopes.size
  self : ∀ i < w.scopes.size, w'.scopes.get? i selfName = w.scopes.get? i selfName

variable {T : Texts} {w w' : World} {past : List Moment}

namespace Steady

theorem of_quiet (h : w.store.Quiet w'.store) : w.Steady w' := ⟨h.size.ge, fun i _ => h.self i⟩

theorem trans {w₁ w₂ w₃ : World} (h : w₁.Steady w₂) (h' : w₂.Steady w₃) : w₁.Steady w₃ where
  scopes_le := h.scopes_le.trans h'.scopes_le
  self i hi := (h'.self i (hi.trans_le h.scopes_le)).trans (h.self i hi)

theorem of_scopes_eq (h : w'.scopes = w.scopes) : w.Steady w' :=
  ⟨(congrArg Scopes.size h).ge, fun i _ => congrArg (·.get? i selfName) h⟩

theorem binds_iff (h : w.Steady w') {i : ScopeId} (hi : i < w.scopes.size) :
    w'.Binds i selfName ↔ w.Binds i selfName := by
  rw [Binds, Binds, h.self i hi]

theorem declareOperation (w : World) (i : ScopeId) {o : Operation} (ho : o.name.text ≠ selfName)
    (P : Place) : w.Steady (w.declareOperation i o P) := by
  have hadd : w.Steady (w.addClosure ⟨o, i, false⟩ ⟨P, true⟩) := of_scopes_eq rfl
  exact hadd.trans (of_quiet (.define _ i ho _))

theorem declareObject (w : World) (i : ScopeId) {name : String} (hname : name ≠ selfName)
    (P : Place) (methods : List Operation) : w.Steady (w.declareObject i name P methods) := by
  have hnamed : w.Steady (w.define i name .none) := of_quiet (.define _ i hname _)
  have hmade := hnamed.trans (of_scopes_eq (scopes_addMethods _ i P methods))
  have hobject (t : ObjectType) : w.Steady (((w.define i name .none).addMethods i P
      methods).addObject t) := hmade.trans (of_scopes_eq rfl)
  exact (hobject _).trans (of_quiet (.define _ i hname _))

end Steady

theorem not_binds_size (w : World) (x : String) : ¬w.Binds w.scopes.size x := by
  intro hb
  obtain ⟨v, hv⟩ := Option.isSome_iff_exists.1 hb
  exact absurd (Scopes.lt_size_of_get?_eq_some _ hv) (lt_irrefl _)

theorem outer?_enter_cases {outer i o : ScopeId} {regions : List Region}
    (h : (w.enter outer regions).scopes.outer? i = some o) :
    i = w.scopes.size ∧ o = outer ∨ i < w.scopes.size ∧ w.scopes.outer? i = some o := by
  have hcells : (w.enter outer regions).scopes.cells =
      w.scopes.cells.push ⟨(some outer).filter (· < w.scopes.cells.size), .empty⟩ := rfl
  rw [Scopes.outer?, hcells, Array.getElem?_push] at h
  split at h
  · next hnew =>
    have hfilter : (some outer).filter (· < w.scopes.cells.size) = some o := h
    exact .inl ⟨hnew, (Option.some.inj (Option.filter_eq_some_iff.1 hfilter).1).symm⟩
  · obtain ⟨cell, hcell, -⟩ := Option.bind_eq_some_iff.1 h
    exact .inr ⟨(Array.getElem?_eq_some_iff.1 hcell).1, h⟩

theorem closures_addClosure_cases {c d : Closure} {origin : Origin} {id : Nat}
    (h : (w.addClosure c origin).store.closures[id]? = some d) :
    id = w.store.closures.size ∧ d = c ∨ w.store.closures[id]? = some d := by
  rw [show (w.addClosure c origin).store.closures = w.store.closures.push c from rfl,
    Array.getElem?_push] at h
  split at h
  · next hnew => exact .inl ⟨hnew, (Option.some.inj h).symm⟩
  · exact .inr h

theorem closures_addClosure {d : Closure} {id : Nat} (h : w.store.closures[id]? = some d)
    (c : Closure) (origin : Origin) :
    (w.addClosure c origin).store.closures[id]? = some d ∧
      (w.addClosure c origin).origins id = w.origins id := by
  have hne : id ≠ w.store.closures.size := Nat.ne_of_lt (Array.getElem?_eq_some_iff.1 h).1
  refine ⟨?_, if_neg hne⟩
  rw [show (w.addClosure c origin).store.closures = w.store.closures.push c from rfl,
    Array.getElem?_push, if_neg hne]
  exact h

theorem Unbound.addClosure {id : Nat} (h : w.Unbound T id) (c : Closure) (origin : Origin) :
    (w.addClosure c origin).Unbound T id := by
  obtain ⟨d, hd, hb, hmethod⟩ := h
  obtain ⟨hd', horigin⟩ := closures_addClosure hd c origin
  exact ⟨d, hd', hb, horigin ▸ hmethod⟩

namespace Manned

theorem mono {later : List Moment} (h : w.Manned T past) (hsub : past ⊆ later) :
    w.Manned T later := by
  refine { h with received := fun id c hc hb => ?_ }
  obtain ⟨hmethod, t, i, hself, y, hy, hbinds⟩ := h.received id c hc hb
  exact ⟨hmethod, t, i, hself, y, hsub hy, hbinds⟩

theorem of_quiet (h : w.Manned T past) (hq : w.store.Quiet w'.store) (hr : w'.regions = w.regions)
    (ho : w'.origins = w.origins) : w'.Manned T past := by
  have hbinds : ∀ i, w'.Binds i selfName ↔ w.Binds i selfName := by
    intro i
    rw [Binds, Binds, scopes, scopes, hq.self]
  refine ⟨?scope_lt, ?visits, ?received, ?unique, ?calls, ?bound, ?methods⟩
  case scope_lt =>
    intro id c hc
    rw [hq.closures] at hc
    exact (h.scope_lt id c hc).trans_eq hq.size.symm
  case visits =>
    intro id c hc
    rw [hq.closures] at hc
    rw [ho]
    exact h.visits id c hc
  case received =>
    intro id c hc hb
    rw [hq.closures] at hc
    obtain ⟨hmethod, t, i, hself, hy⟩ := h.received id c hc ((hbinds _).1 hb)
    exact ⟨ho ▸ hmethod, t, i, (hq.self _).trans hself, hy⟩
  case unique =>
    intro id id' c c' hc hc' hb heq
    rw [hq.closures] at hc hc'
    exact h.unique id id' c c' hc hc' ((hbinds _).1 hb) heq
  case calls =>
    intro i o hi hb
    have hi' : w.scopes.outer? i = some o := (hq.outer i).symm.trans hi
    obtain ⟨id, c, hc, hscope, hregions⟩ := h.calls i o hi' ((hbinds _).1 hb)
    refine ⟨id, c, ?_, hscope, ?_⟩
    · rwa [hq.closures]
    · rw [hr, ho]
      exact hregions
  case bound =>
    intro i hi region outer hregions hmem
    rw [hr] at hregions
    exact (hbinds i).2 (h.bound i (hi.trans_eq hq.size) region outer hregions hmem)
  case methods =>
    intro type ht x id hid
    rw [hq.objects] at ht
    obtain ⟨c, hc, hb, hmethod⟩ := h.methods type ht x id hid
    refine ⟨c, ?_, fun hb' => hb ((hbinds _).1 hb'), ho ▸ hmethod⟩
    rwa [hq.closures]

/-- A new scope that does not bind `self`, and that is a call if it lies in one that does. -/
theorem enter (h : w.Manned T past) {outer : ScopeId} {regions : List Region}
    (hcall : w.Binds outer selfName → w.Calls outer regions)
    (hself : ∀ region rest, regions = region :: rest → selfName ∉ region.names) :
    (w.enter outer regions).Manned T past := by
  have hbinds : ∀ i, (w.enter outer regions).Binds i selfName ↔ w.Binds i selfName := by
    intro i
    rw [Binds, Binds, get?_enter]
  have hg := w.grows_enter outer regions
  refine ⟨?scope_lt, h.visits, ?received, ?unique, ?calls, ?bound, ?methods⟩
  case scope_lt => exact fun id c hc => (h.scope_lt id c hc).trans_le hg.scopes_le
  case received =>
    intro id c hc hb
    obtain ⟨hmethod, t, i, hget, hy⟩ := h.received id c hc ((hbinds _).1 hb)
    exact ⟨hmethod, t, i, (get?_enter ..).trans hget, hy⟩
  case unique => exact fun id id' c c' hc hc' hb => h.unique id id' c c' hc hc' ((hbinds _).1 hb)
  case calls =>
    intro i o hi hb
    rw [hbinds] at hb
    rcases outer?_enter_cases hi with ⟨rfl, rfl⟩ | ⟨hlt, hi⟩
    · rw [regions_enter]
      exact hcall hb
    · rw [hg.regions i hlt]
      exact h.calls i o hi hb
  case bound =>
    intro i hi region rest hregions hmem
    rw [hbinds]
    by_cases hnew : i = w.scopes.size
    · subst hnew
      rw [regions_enter] at hregions
      exact absurd hmem (hself region rest hregions)
    · rw [size_enter] at hi
      have hold : i < w.scopes.size := by omega
      rw [hg.regions i hold] at hregions
      exact h.bound i hold region rest hregions hmem
  case methods =>
    intro type ht x id hid
    obtain ⟨c, hc, hb, hmethod⟩ := h.methods type ht x id hid
    exact ⟨c, hc, fun hb' => hb ((hbinds _).1 hb'), hmethod⟩

theorem defineAll (h : w.Manned T past) (i : ScopeId) {entries : List (String × Value)}
    (hx : ∀ entry ∈ entries, entry.1 ≠ selfName) : (w.defineAll i entries).Manned T past := by
  rw [store_defineAll]
  exact h.of_quiet (.defineAll w.store i hx) rfl rfl

theorem define (h : w.Manned T past) (i : ScopeId) {x : String} (hx : x ≠ selfName) (v : Value) :
    (w.define i x v).Manned T past :=
  h.of_quiet (.define w.store i hx v) rfl rfl

theorem openScope (h : w.Manned T past) {outer : ScopeId} {regions : List Region}
    {bindings : List (String × Value)} (hcall : w.Binds outer selfName → w.Calls outer regions)
    (hself : ∀ region rest, regions = region :: rest → selfName ∉ region.names)
    (hx : ∀ b ∈ bindings, b.1 ≠ selfName) : (w.openScope outer regions bindings).Manned T past :=
  (h.enter hcall hself).defineAll _ hx

/-- A new operation in a scope that does not bind `self`. -/
theorem addClosure (h : w.Manned T past) {c : Closure} {origin : Origin}
    (hlt : c.scope < w.scopes.size) (hself : ¬w.Binds c.scope selfName)
    (hv : ∀ v ∈ c.declaration.visits origin.place, T.visits v) :
    (w.addClosure c origin).Manned T past := by
  have horigin : (w.addClosure c origin).origins w.store.closures.size = origin := if_pos rfl
  refine ⟨?scope_lt, ?visits, ?received, ?unique, ?calls, h.bound, ?methods⟩
  case scope_lt =>
    intro id d hd
    rcases closures_addClosure_cases hd with ⟨-, rfl⟩ | hd
    · exact hlt
    · exact h.scope_lt id d hd
  case visits =>
    intro id d hd
    rcases closures_addClosure_cases hd with ⟨rfl, rfl⟩ | hd
    · rwa [horigin]
    · rw [(closures_addClosure hd c origin).2]
      exact h.visits id d hd
  case received =>
    intro id d hd hb
    rcases closures_addClosure_cases hd with ⟨-, rfl⟩ | hd
    · exact absurd hb hself
    · rw [Received, (closures_addClosure hd c origin).2]
      exact h.received id d hd hb
  case unique =>
    intro id id' d d' hd hd' hb heq
    rcases closures_addClosure_cases hd with ⟨-, rfl⟩ | hd
    · exact absurd hb hself
    · rcases closures_addClosure_cases hd' with ⟨-, rfl⟩ | hd'
      · exact absurd (heq ▸ hb) hself
      · exact h.unique id id' d d' hd hd' hb heq
  case calls =>
    intro i o hi hb
    obtain ⟨id, d, hd, hscope, hregions⟩ := h.calls i o hi hb
    obtain ⟨hd', ho⟩ := closures_addClosure hd c origin
    refine ⟨id, d, hd', hscope, ?_⟩
    rw [ho]
    exact hregions
  case methods => exact fun type ht x id hid => (h.methods type ht x id hid).addClosure c origin

end Manned

theorem openScope_spec (w : World) (outer : ScopeId) (regions : List Region)
    {bindings : List (String × Value)} (hx : ∀ b ∈ bindings, b.1 ≠ selfName) :
    (w.openScope outer regions bindings).scopes.size = w.scopes.size + 1 ∧
      ∀ i, (w.openScope outer regions bindings).scopes.get? i selfName =
        w.scopes.get? i selfName := by
  have hq := Store.Quiet.defineAll (w.enter outer regions).store w.scopes.size hx
  rw [openScope, store_defineAll]
  exact ⟨hq.size.trans (size_enter ..), fun i => (hq.self i).trans (get?_enter ..)⟩

/-- A method is bound: a scope that binds `self`, and the operation in it. -/
def receive (w : World) (c : Closure) (P : Place) (receiver : Value) : World :=
  (w.openScope c.scope P.regions [(selfName, receiver)]).addClosure
    { c with scope := w.scopes.size } ⟨P, true⟩

section

variable (w : World) (c : Closure) (P : Place) (receiver : Value)

theorem size_receive : (w.receive c P receiver).scopes.size = w.scopes.size + 1 :=
  (Scopes.size_define ..).trans (size_enter ..)

theorem origins_receive :
    (w.receive c P receiver).origins w.store.closures.size = ⟨P, true⟩ := if_pos rfl

theorem get?_receive (i : ScopeId) : (w.receive c P receiver).scopes.get? i selfName =
    if i = w.scopes.size then some receiver else w.scopes.get? i selfName := by
  have hlt : w.scopes.size < (w.enter c.scope P.regions).scopes.size := by
    rw [size_enter]
    exact Nat.lt_succ_self _
  have hdefine := (w.enter c.scope P.regions).scopes.get?_define w.scopes.size i selfName selfName
    receiver
  rw [get?_enter] at hdefine
  refine Eq.trans hdefine ?_
  simp only [hlt, and_true]

theorem binds_receive : (w.receive c P receiver).Binds w.scopes.size selfName := by
  rw [Binds, get?_receive, if_pos rfl]
  rfl

theorem steady_receive : w.Steady (w.receive c P receiver) := by
  refine ⟨?_, fun i hi => ?_⟩
  · rw [size_receive]
    exact Nat.le_succ _
  · rw [get?_receive, if_neg (Nat.ne_of_lt hi)]

end

variable {c : Closure} {P : Place} {receiver : Value}

theorem outer?_receive_cases {i o : ScopeId}
    (h : (w.receive c P receiver).scopes.outer? i = some o) :
    i = w.scopes.size ∧ o = c.scope ∨ i < w.scopes.size ∧ w.scopes.outer? i = some o :=
  outer?_enter_cases ((Scopes.outer?_define ..).symm.trans h)

theorem closures_receive_cases {id : Nat} {d : Closure}
    (h : (w.receive c P receiver).store.closures[id]? = some d) :
    id = w.store.closures.size ∧ d = { c with scope := w.scopes.size } ∨
      w.store.closures[id]? = some d := by
  have hadd : ((w.openScope c.scope P.regions [(selfName, receiver)]).addClosure
      { c with scope := w.scopes.size } ⟨P, true⟩).store.closures[id]? = some d := h
  have hcases := closures_addClosure_cases hadd
  exact hcases

theorem closures_receive {id : Nat} {d : Closure} (h : w.store.closures[id]? = some d)
    (c : Closure) (P : Place) (receiver : Value) :
    (w.receive c P receiver).store.closures[id]? = some d ∧
      (w.receive c P receiver).origins id = w.origins id :=
  closures_addClosure (w := w.openScope c.scope P.regions [(selfName, receiver)]) h _ _

theorem Manned.receive (h : w.Manned T past) {t i : Nat} {y : Moment}
    (hlt : c.scope < w.scopes.size) (hself : ¬w.Binds c.scope selfName)
    (hmethod : T.visits ⟨.method c.declaration, P⟩)
    (hv : ∀ v ∈ c.declaration.visits P, T.visits v) (hy : y ∈ past)
    (hbinds : y.Binds w.store.closures.size (.holder (.object t) i)) :
    (w.receive c P (.holder (.object t) i)).Manned T past := by
  have hsize := w.size_receive c P (.holder (.object t) i)
  have hsteady := w.steady_receive c P (.holder (.object t) i)
  have horigin := w.origins_receive c P (.holder (.object t) i)
  refine ⟨?scope_lt, ?visits, ?received, ?unique, ?calls, ?bound, ?methods⟩
  case scope_lt =>
    intro id d hd
    rw [hsize]
    rcases closures_receive_cases hd with ⟨-, rfl⟩ | hd
    · exact Nat.lt_succ_self _
    · exact (h.scope_lt id d hd).trans (Nat.lt_succ_self _)
  case visits =>
    intro id d hd
    rcases closures_receive_cases hd with ⟨rfl, rfl⟩ | hd
    · rwa [horigin]
    · rw [(closures_receive hd ..).2]
      exact h.visits id d hd
  case received =>
    intro id d hd hb
    rcases closures_receive_cases hd with ⟨rfl, rfl⟩ | hd
    · refine ⟨?_, t, i, (get?_receive ..).trans (if_pos rfl), y, hy, hbinds⟩
      rwa [horigin]
    · have hd_lt := h.scope_lt id d hd
      obtain ⟨hmethod', t', i', hget, hy'⟩ :=
        h.received id d hd ((hsteady.binds_iff hd_lt).1 hb)
      refine ⟨?_, t', i', (hsteady.self _ hd_lt).trans hget, hy'⟩
      rwa [(closures_receive hd ..).2]
  case unique =>
    intro id id' d d' hd hd' hb heq
    rcases closures_receive_cases hd with ⟨rfl, rfl⟩ | hd
    · rcases closures_receive_cases hd' with ⟨rfl, -⟩ | hd'
      · rfl
      · exact absurd heq (Nat.ne_of_lt (h.scope_lt id' d' hd'))
    · have hd_lt := h.scope_lt id d hd
      rcases closures_receive_cases hd' with ⟨-, rfl⟩ | hd'
      · exact absurd heq.symm (Nat.ne_of_lt hd_lt)
      · exact h.unique id id' d d' hd hd' ((hsteady.binds_iff hd_lt).1 hb) heq
  case calls =>
    intro j o hj hb
    rcases outer?_receive_cases hj with ⟨-, rfl⟩ | ⟨hlt', hj⟩
    · exact absurd ((hsteady.binds_iff hlt).1 hb) hself
    · have ho := (Scopes.outer?_lt hj).trans hlt'
      obtain ⟨id, d, hd, hscope, hregions⟩ := h.calls j o hj ((hsteady.binds_iff ho).1 hb)
      obtain ⟨hd', horigin'⟩ := closures_receive hd c P (.holder (.object t) i)
      refine ⟨id, d, hd', hscope, ?_⟩
      rw [horigin', ← hregions]
      exact if_neg (Nat.ne_of_lt hlt')
  case bound =>
    intro j hj region outer hregions hmem
    rw [hsize] at hj
    by_cases hnew : j = w.scopes.size
    · rw [hnew]
      exact binds_receive ..
    · have hold : j < w.scopes.size := by omega
      refine (hsteady.binds_iff hold).2 (h.bound j hold region outer ?_ hmem)
      rw [← hregions]
      exact (if_neg hnew).symm
  case methods =>
    intro type ht x id hid
    obtain ⟨d, hd, hb, hmethod'⟩ := h.methods type ht x id hid
    obtain ⟨hd', horigin'⟩ := closures_receive hd c P (.holder (.object t) i)
    refine ⟨d, hd', fun hb' => hb ?_, horigin' ▸ hmethod'⟩
    exact (hsteady.binds_iff (h.scope_lt id d hd)).1 hb'

end World

/-- The table of an object names its methods. -/
theorem World.unbound_addMethods {T : Texts} {w : World} {i : ScopeId} {P : Place}
    {methods : List Operation} (hself : ¬w.Binds i selfName)
    (hv : ∀ v ∈ Operation.visitsOfList P methods, T.visits v) (table : NameMap Nat)
    (ht : ∀ x id, table.get? x = some id → w.Unbound T id) :
    let made := methods.foldl (fun acc m =>
      let (s, id) := Store.addClosure acc.1 ⟨m, i, m.name.text == pilotName⟩
      (s, acc.2.insert m.name.text id)) (w.store, table)
    ∀ x id, made.2.get? x = some id → (w.addMethods i P methods).Unbound T id := by
  induction methods generalizing w P table with
  | nil => exact ht
  | cons o rest ih =>
    rw [Operation.visitsOfList, List.cons_append, List.forall_mem_cons,
      List.forall_mem_append] at hv
    refine ih (w := w.addClosure _ ⟨P.child 0, false⟩) hself hv.2.2 _ fun x id hid => ?_
    rw [NameMap.get?_insert] at hid
    split at hid
    · obtain rfl := Option.some.inj hid
      refine ⟨_, Array.getElem?_push_size, hself, ?_⟩
      have horigin : (w.addClosure ⟨o, i, o.name.text == pilotName⟩ ⟨P.child 0, false⟩).origins
          w.store.closures.size = ⟨P.child 0, false⟩ := if_pos rfl
      rw [horigin]
      exact hv.1
    · exact (ht x id hid).addClosure _ _

namespace World.Manned

variable {T : Texts} {w : World} {past : List Moment} {P : Place} {i : ScopeId}

theorem declareOperation (h : w.Manned T past) (hlt : i < w.scopes.size)
    (hself : ¬w.Binds i selfName) {o : Operation} (ho : o.name.text ≠ selfName)
    (hv : ∀ v ∈ o.visits P, T.visits v) : (w.declareOperation i o P).Manned T past := by
  have hadd : (w.addClosure ⟨o, i, false⟩ ⟨P, true⟩).Manned T past := h.addClosure hlt hself hv
  exact hadd.define i ho _

theorem addMethods (h : w.Manned T past) (hlt : i < w.scopes.size) (hself : ¬w.Binds i selfName)
    {methods : List Operation} (hv : ∀ v ∈ Operation.visitsOfList P methods, T.visits v) :
    (w.addMethods i P methods).Manned T past := by
  induction methods generalizing w P with
  | nil => exact h
  | cons o rest ih =>
    rw [Operation.visitsOfList, List.cons_append, List.forall_mem_cons,
      List.forall_mem_append] at hv
    have hadd : (w.addClosure ⟨o, i, o.name.text == pilotName⟩ ⟨P.child 0, false⟩).Manned T past :=
      h.addClosure hlt hself hv.2.1
    exact ih hadd hlt hself hv.2.2

theorem addObject (h : w.Manned T past) {t : ObjectType}
    (ht : ∀ x id, t.methods.get? x = some id → w.Unbound T id) :
    (w.addObject t).Manned T past := by
  refine { h with methods := fun type htype x id hid => ?_ }
  rcases Array.mem_push.1 htype with htype | rfl
  · exact h.methods type htype x id hid
  · exact ht x id hid

theorem declareObject (h : w.Manned T past) (hlt : i < w.scopes.size)
    (hself : ¬w.Binds i selfName) {name : String} (hname : name ≠ selfName)
    {methods : List Operation} (hv : ∀ v ∈ Operation.visitsOfList P methods, T.visits v) :
    (w.declareObject i name P methods).Manned T past := by
  have hq := Store.Quiet.define w.store i hname .none
  have hlt' : i < (w.define i name .none).scopes.size := hlt.trans_eq hq.size.symm
  have hself' : ¬(w.define i name .none).Binds i selfName := by
    rw [World.Binds, show (w.define i name .none).scopes.get? i selfName = _ from hq.self i]
    exact hself
  have hmade := (h.define i hname .none).addMethods hlt' hself' hv
  refine (hmade.addObject (World.unbound_addMethods hself' hv .empty ?_)).define i hname _
  intro x id hid
  cases hid

end World.Manned

end Treescript
