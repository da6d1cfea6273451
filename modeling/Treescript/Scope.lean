import Treescript.NameMap

/-!
# Scopes

Scopes hold the bindings of a running program. They form a forest: every scope but the outermost
has an outer scope that was there before it, so every chain of outer scopes ends. A name is looked
up in one scope, in a scope a given number of hops out, or in the nearest scope that binds it.
-/

namespace Treescript

/-- A scope by its number in the order of creation. -/
abbrev ScopeId := Nat

structure Scope (α : Type) where
  outer : Option ScopeId
  bindings : NameMap α

/-- All scopes of a session. The outer scope of a scope is older than the scope itself. -/
structure Scopes (α : Type) where
  cells : Array (Scope α)
  outer_lt : ∀ (i : Nat) (s : Scope α), cells[i]? = some s → ∀ o, s.outer = some o → o < i

namespace Scopes

variable {α : Type}

def empty : Scopes α := ⟨#[], by simp⟩

def size (ss : Scopes α) : Nat := ss.cells.size

/-- The enclosing scope, none for an outermost one. -/
def outer? (ss : Scopes α) (id : ScopeId) : Option ScopeId :=
  ss.cells[id]?.bind (·.outer)

theorem outer?_lt {ss : Scopes α} {id o : ScopeId} (h : ss.outer? id = some o) : o < id := by
  simp only [outer?, Option.bind_eq_some_iff] at h
  obtain ⟨s, hs, ho⟩ := h
  exact ss.outer_lt id s hs o ho

/-- The value a scope binds to a name, looking at this scope only. -/
def get? (ss : Scopes α) (id : ScopeId) (name : String) : Option α :=
  ss.cells[id]?.bind (·.bindings.get? name)

/-- Adds a scope without bindings. An outer scope that does not exist counts as none. -/
def push (ss : Scopes α) (outer : Option ScopeId) : Scopes α :=
  ⟨ss.cells.push ⟨outer.filter (· < ss.cells.size), .empty⟩, by
    intro i s hs o ho
    rw [Array.getElem?_push] at hs
    split at hs
    · next hi =>
      cases hs
      simpa [hi] using (Option.filter_eq_some_iff.1 ho).2
    · exact ss.outer_lt i s hs o ho⟩

/-- Adds an outermost scope. -/
def pushRoot (ss : Scopes α) : Scopes α × ScopeId := (ss.push none, ss.size)

/-- Adds a scope inside another one. -/
def enter (ss : Scopes α) (outer : ScopeId) : Scopes α × ScopeId := (ss.push (some outer), ss.size)

/-- Binds a name in a scope, in place of any value it had there. -/
def define (ss : Scopes α) (id : ScopeId) (name : String) (value : α) : Scopes α :=
  ⟨ss.cells.modify id fun s => { s with bindings := s.bindings.insert name value }, by
    intro i s hs o ho
    rw [Array.getElem?_modify] at hs
    split at hs
    · obtain ⟨t, ht, rfl⟩ := Option.map_eq_some_iff.1 hs
      exact ss.outer_lt i t ht o ho
    · exact ss.outer_lt i s hs o ho⟩

/-- Binds names of a scope one after the other. -/
def defineAll (ss : Scopes α) (id : ScopeId) (entries : List (String × α)) : Scopes α :=
  entries.foldl (fun ss e => ss.define id e.1 e.2) ss

/-- Rebinds a name that a scope binds already; none when it does not. -/
def assign? (ss : Scopes α) (id : ScopeId) (name : String) (value : α) : Option (Scopes α) :=
  if (ss.get? id name).isSome then some (ss.define id name value) else none

/-- The scope a number of hops out. -/
def ancestor? (ss : Scopes α) : Nat → ScopeId → Option ScopeId
  | 0, id => some id
  | hops + 1, id => (ss.outer? id).bind (ss.ancestor? hops)

/-- The value bound in the scope exactly `hops` out. -/
def getAt? (ss : Scopes α) (hops : Nat) (id : ScopeId) (name : String) : Option α :=
  (ss.ancestor? hops id).bind (ss.get? · name)

/-- Rebinds a name in the scope exactly `hops` out. -/
def assignAt? (ss : Scopes α) (hops : Nat) (id : ScopeId) (name : String) (value : α) :
    Option (Scopes α) :=
  (ss.ancestor? hops id).bind (ss.assign? · name value)

/-- The scope exactly `hops` out, if it binds a name. -/
def binderAt? (ss : Scopes α) (hops : Nat) (id : ScopeId) (name : String) : Option ScopeId :=
  (ss.ancestor? hops id).filter fun o => (ss.get? o name).isSome

theorem assignAt?_eq_map_define (ss : Scopes α) (hops : Nat) (id : ScopeId) (name : String)
    (value : α) :
    ss.assignAt? hops id name value =
      (ss.binderAt? hops id name).map (ss.define · name value) := by
  cases h : ss.ancestor? hops id with
  | none => simp [assignAt?, binderAt?, h]
  | some o =>
    by_cases hb : (ss.get? o name).isSome <;>
      simp [assignAt?, binderAt?, assign?, h, hb, Option.filter]

/-- The value of a name in the nearest scope that binds it. -/
def resolve? (ss : Scopes α) (id : ScopeId) (name : String) : Option α :=
  match ss.get? id name with
  | some value => some value
  | none =>
    match h : ss.outer? id with
    | none => none
    | some o =>
      have := outer?_lt h
      ss.resolve? o name
termination_by id

end Scopes

end Treescript
