import Treescript.Proofs.ChronicledEvaluations

/-!
# Between the entries of a chronicle

What a machine does from one entry of a chronicle to the next. Assignments apart, it binds names in
the scope that it is in, makes scopes, operations, types and holders, and writes fields. Only an
assignment reaches a scope that is there and not current, and an assignment is the last that an
evaluation does. So the machines at the entries follow each other in small steps, and what a
variable holds at the end of a chronicle can be read off the chronicle.
-/

namespace Treescript

theorem Scopes.get?_defineAll_of_ne {α : Type} (ss : Scopes α) {id i : ScopeId} (hne : i ≠ id)
    (entries : List (String × α)) (x : String) :
    (ss.defineAll id entries).get? i x = ss.get? i x := by
  induction entries generalizing ss with
  | nil => rfl
  | cons entry rest ih =>
    refine (ih (ss.define id entry.1 entry.2)).trans ?_
    rw [Scopes.get?_define, if_neg fun h => hne h.1]

/-- Adding methods adds operations and nothing else. -/
theorem Store.exists_addMethods_eq (s : Store) (scope : ScopeId) (methods : List Operation) :
    ∃ closures, (s.addMethods scope methods).1 = { s with closures } := by
  rw [Store.addMethods]
  generalize NameMap.empty = table
  induction methods generalizing s table with
  | nil => exact ⟨s.closures, rfl⟩
  | cons o rest ih =>
    obtain ⟨closures, h⟩ := ih (s.addClosure ⟨o, scope, o.name.text == pilotName⟩).1 _
    exact ⟨closures, h⟩

/-- All that can happen to a store while a scope is current, assignments apart. -/
inductive Store.Alters (current : ScopeId) : Store → Store → Prop
  | refl (s : Store) : Alters current s s
  | trans {s₁ s₂ s₃ : Store} (h : Alters current s₁ s₂) (h' : Alters current s₂ s₃) :
    Alters current s₁ s₃
  | define (s : Store) (x : String) (v : Value) : Alters current s (s.define current x v)
  | enter (s : Store) (outer : ScopeId) (bindings : List (String × Value)) :
    Alters current s { (s.enterScope outer).1 with
      scopes := (s.enterScope outer).1.scopes.defineAll s.scopes.size bindings }
  | bindSelf (s : Store) (c : Closure) (v : Value) : Alters current s (s.bindSelf c v).1
  | addOperation (s : Store) (o : Operation) (scope : ScopeId) :
    Alters current s (s.addClosure ⟨o, scope, false⟩).1
  | addObject (s : Store) (scope : ScopeId) (name : String) (methods : List Operation) :
    Alters current s ((s.addMethods scope methods).1.addObject
      ⟨name, (s.addMethods scope methods).2⟩).1
  | addEnum (s : Store) (t : EnumType) : Alters current s (s.addEnum t).1
  | addForm (s : Store) (t : FormType) : Alters current s (s.addForm t).1
  | addHolder (s : Store) : Alters current s s.addHolder.1
  | setField (s : Store) (id : Nat) (x : String) (v : Value) : Alters current s (s.setField id x v)

namespace Store.Alters

variable {current : ScopeId} {s s' : Store}

theorem grows (h : s.Alters current s') : s.Grows s' := by
  induction h with
  | refl s => exact .refl s
  | trans _ _ ih ih' => exact ih.trans ih'
  | define s x v => exact ⟨.define .., Nat.le_refl _⟩
  | enter s outer bindings =>
    exact ⟨(Store.Extends.enterScope s outer).trans (.defineAll ..), Nat.le_refl _⟩
  | bindSelf s c v => exact ⟨.bindSelf .., Nat.le_refl _⟩
  | addOperation s o scope => exact ⟨.addClosure .., Nat.le_refl _⟩
  | addObject s scope name methods =>
    exact (Store.Grows.addMethods s scope methods).trans ⟨.addObject .., Nat.le_refl _⟩
  | addEnum s t => exact ⟨.addEnum .., Nat.le_refl _⟩
  | addForm s t => exact ⟨.addForm .., Nat.le_refl _⟩
  | addHolder s => exact .addHolder s
  | setField s id x v => exact .setField ..

/-- The scopes that are there keep their bindings, apart from the current one. -/
theorem get?_eq (h : s.Alters current s') {i : ScopeId} (hi : i < s.scopes.size)
    (hne : i ≠ current) (x : String) : s'.scopes.get? i x = s.scopes.get? i x := by
  induction h with
  | refl | addOperation | addEnum | addForm | addHolder | setField => rfl
  | trans h _ ih ih' => exact (ih' (Nat.lt_of_lt_of_le hi h.grows.scopes_le)).trans (ih hi)
  | define s y v =>
    refine (Scopes.get?_define ..).trans ?_
    rw [if_neg fun h => hne h.1]
  | enter s outer bindings =>
    refine (Scopes.get?_defineAll_of_ne _ (Nat.ne_of_lt hi) bindings x).trans ?_
    exact Scopes.get?_push ..
  | bindSelf s c v =>
    refine (Scopes.get?_define ..).trans ?_
    rw [if_neg fun h => Nat.ne_of_lt hi h.1]
    exact Scopes.get?_push ..
  | addObject s scope name methods =>
    obtain ⟨closures, heq⟩ := s.exists_addMethods_eq scope methods
    exact congrArg (·.scopes.get? i x) heq

end Store.Alters

/-- A value that is written to a variable. -/
structure Assignment where
  scope : ScopeId
  name : String
  value : Value

/-- The assignment that has been made when an expression that assigns ends. -/
def Assignment.of? (name : Token) (hops : Option Nat) :
    Except Stop Value × Machine → Option Assignment
  | (.ok v, m) => (m.target? hops).map fun i => ⟨i, name.text, v⟩
  | (.error _, _) => none

/-- The variable that an expression assigns to. -/
def Expr.assigns? : Expr → Option (Token × Option Nat)
  | .assign name _ hops | .count _ _ name hops => some (name, hops)
  | _ => none

def Evaluation.assignment? : Evaluation → Option Assignment
  | ⟨fuel, .expr e, m⟩ =>
    e.assigns?.bind fun variable_ => Assignment.of? variable_.1 variable_.2 ((e.eval fuel).run m)
  | _ => none

def Entry.assignment? : Entry → Option Assignment
  | ended x => x.assignment?
  | _ => none

def Store.assign (s : Store) : Option Assignment → Store
  | some a => s.define a.scope a.name a.value
  | none => s

/-- The value that is assigned to a variable. -/
def Entry.assigned? (i : ScopeId) (x : String) (k : Entry) : Option Value :=
  k.assignment?.bind fun a => if a.scope = i ∧ a.name = x then some a.value else none

/-- The value that was assigned last to a variable. -/
def Chronicle.assigned? (c : Chronicle) (i : ScopeId) (x : String) : Option Value :=
  c.reverse.findSome? (Entry.assigned? i x)

theorem Entry.assigned?_of_silent {k : Entry} (hk : k.machine? = none) (i : ScopeId) (x : String) :
    k.assigned? i x = none := by
  cases k with
  | made | wrote | declared => rfl
  | idle | begun | ended => cases hk

theorem Chronicle.assigned?_cons (k : Entry) (c : Chronicle) (i : ScopeId) (x : String) :
    Chronicle.assigned? (k :: c) i x = (Chronicle.assigned? c i x).or (k.assigned? i x) := by
  rw [assigned?, List.reverse_cons, List.findSome?_append, List.findSome?_singleton]
  rfl

theorem Chronicle.assigned?_append (c c' : Chronicle) (i : ScopeId) (x : String) :
    Chronicle.assigned? (c ++ c') i x =
      (Chronicle.assigned? c' i x).or (Chronicle.assigned? c i x) := by
  rw [assigned?, List.reverse_append, List.findSome?_append]
  rfl

theorem Machine.target?_define (m : Machine) (i : ScopeId) (x : String) (v : Value)
    (hops : Option Nat) :
    { m with store := m.store.define i x v }.target? hops = m.target? hops := by
  cases hops with
  | none => rfl
  | some n =>
    exact Scopes.ancestor?_eq_of_outer? (fun _ _ => Scopes.outer?_define ..) n
      (Nat.lt_succ_self m.current)

theorem Run.store_assign (name : Token) (hops : Option Nat) (v : Value) (m : Machine) :
    ((Run.assign name hops v).run m).2.store =
      m.store.assign (Assignment.of? name hops ((Run.assign name hops v).run m)) := by
  rw [Run.assign_run]
  cases h : (m.target? hops).filter fun i => (m.store.scopes.get? i name.text).isSome with
  | none => rfl
  | some i =>
    have htarget : m.target? hops = some i := (Option.filter_eq_some_iff.1 h).1
    simp [Assignment.of?, Machine.target?_define, htarget, Store.assign]

namespace Machine

/-- A machine goes from one entry to the next. At the end of an evaluation it comes back to the
scope that this began in; at any other entry it is where it was or in a new scope. -/
structure Advances (m : Machine) (k : Entry) (m' : Machine) : Prop where
  machine : k.machine? = some m'
  store : ∃ s, m.store.Alters m.current s ∧ m'.store = s.assign k.assignment?
  current : (∃ x, k = .ended x) ∨ m'.current = m.current ∨ m.store.scopes.size ≤ m'.current

/-- A machine goes along the entries of a chronicle, and stands as given at the last of them. -/
inductive Path : Machine → Chronicle → Machine → Prop
  | nil (m : Machine) : Path m [] m
  | entry {m m₁ m' : Machine} {k : Entry} {c : Chronicle} (hk : m.Advances k m₁)
    (h : Path m₁ c m') : Path m (k :: c) m'
  | silent {m m' : Machine} {k : Entry} {c : Chronicle} (hk : k.machine? = none)
    (h : Path m c m') : Path m (k :: c) m'

namespace Advances

variable {m m' : Machine} {k : Entry}

theorem begun {x : Evaluation} (h : m.store.Alters m.current x.machine.store)
    (hcurrent : x.machine.current = m.current ∨ m.store.scopes.size ≤ x.machine.current) :
    m.Advances (.begun x) x.machine :=
  ⟨rfl, ⟨_, h, rfl⟩, .inr hcurrent⟩

theorem ended {x : Evaluation} {s : Store} (h : m.store.Alters m.current s)
    (hs : x.outcome.2.store = s.assign x.assignment?) : m.Advances (.ended x) x.outcome.2 :=
  ⟨rfl, ⟨s, h, hs⟩, .inl ⟨x, rfl⟩⟩

theorem grows (h : m.Advances k m') : m.store.Grows m'.store := by
  obtain ⟨s, halters, hstore⟩ := h.store
  refine halters.grows.trans ?_
  rw [hstore]
  cases k.assignment? with
  | none => exact .refl s
  | some a => exact ⟨.define .., Nat.le_refl _⟩

/-- A variable of a scope that is there and not current has the value that the entry assigns to it,
or else the one that it had. -/
theorem get?_eq (h : m.Advances k m') {i : ScopeId} (hi : i < m.store.scopes.size)
    (hne : i ≠ m.current) (x : String) :
    m'.store.scopes.get? i x = (k.assigned? i x).or (m.store.scopes.get? i x) := by
  obtain ⟨s, halters, hstore⟩ := h.store
  have hsize := Nat.lt_of_lt_of_le hi halters.grows.scopes_le
  rw [hstore, Entry.assigned?, ← halters.get?_eq hi hne x]
  cases k.assignment? with
  | none => rfl
  | some a =>
    refine (Scopes.get?_define ..).trans ?_
    by_cases ha : a.scope = i ∧ a.name = x
    · rw [if_pos ⟨ha.1.symm, ha.2.symm, ha.1 ▸ hsize⟩, Option.bind_some, if_pos ha]
      rfl
    · rw [if_neg fun h => ha ⟨h.1.symm, h.2.1.symm⟩, Option.bind_some, if_neg ha]
      rfl

end Advances

namespace Path

variable {m m₁ m' : Machine} {c c' : Chronicle}

theorem append (h : m.Path c m₁) (h' : m₁.Path c' m') : m.Path (c ++ c') m' := by
  induction h with
  | nil => exact h'
  | entry hk _ ih => exact .entry hk (ih h')
  | silent hk _ ih => exact .silent hk (ih h')

theorem of_append (h : m.Path (c ++ c') m') : ∃ m₁, m.Path c m₁ ∧ m₁.Path c' m' := by
  induction c generalizing m with
  | nil => exact ⟨m, .nil m, h⟩
  | cons k c ih =>
    cases h with
    | entry hk h =>
      obtain ⟨m₁, hc, hc'⟩ := ih h
      exact ⟨m₁, .entry hk hc, hc'⟩
    | silent hk h =>
      obtain ⟨m₁, hc, hc'⟩ := ih h
      exact ⟨m₁, .silent hk hc, hc'⟩

theorem eq_of_concat {k : Entry} (h : m.Path (c ++ [k]) m') (hk : k.machine? = some m₁) :
    m' = m₁ := by
  obtain ⟨m₂, -, hlast⟩ := of_append h
  cases hlast with
  | entry hadvances hnil =>
    cases hnil
    exact Option.some.inj (hadvances.machine.symm.trans hk)
  | silent hnone _ => cases hnone.symm.trans hk

theorem of_silent (h : ∀ k ∈ c, k.machine? = none) (m : Machine) : m.Path c m := by
  induction c with
  | nil => exact .nil m
  | cons k c ih =>
    obtain ⟨hk, hc⟩ := List.forall_mem_cons.1 h
    exact .silent hk (ih hc)

theorem grows (h : m.Path c m') : m.store.Grows m'.store := by
  induction h with
  | nil m => exact .refl _
  | entry hk _ ih => exact hk.grows.trans ih
  | silent _ _ ih => exact ih

end Path

end Machine

end Treescript
