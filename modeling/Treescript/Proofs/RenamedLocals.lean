import Mathlib.Logic.Equiv.Basic
import Treescript.Proofs.Coverage
import Treescript.Proofs.DistinctNames
import Treescript.Proofs.Occurrences
import Treescript.Proofs.ResolvedPrograms
import Treescript.Proofs.RevisedRuns

/-!
# New names for local variables

A variable of a local scope gets a name that the program does not use, at its declaration and at
each reference whose number of hops leads to that scope. References that have the old name and lead
elsewhere keep it. The names are resolved as before, and the only difference that a run can make is
the name in the report of an undefined variable.
-/

namespace Treescript

/-- What opens a local scope with variables. -/
inductive LocalScope where
  | block (token : Token) (body : List Stmt)
  | operation (o : Operation)
  | method (token name : Token) (earlier : List Operation) (o : Operation)
      (later : List Operation)

namespace LocalScope

def stmt : LocalScope → Stmt
  | block token body => .block token body
  | operation o => .operation o
  | method token name earlier o later => .object token name (earlier ++ o :: later)

def params : LocalScope → List Token
  | block .. => []
  | operation o | method _ _ _ o _ => o.params

def body : LocalScope → List Stmt
  | block _ body => body
  | operation o | method _ _ _ o _ => o.body

/-- The parameters of the scope and the variables that statements define in it. -/
def locals (K : LocalScope) : List String :=
  K.params.map (·.text) ++ Stmt.variablesOfList K.body

end LocalScope

theorem LocalScope.exists_visits (C : Context) (K : LocalScope) (program : Nat) :
    ∃ Q : Place, Q.isLocal ∧ Q.seen = [] ∧
      (∀ v ∈ Token.visitsOfParams Q K.params, v ∈ (C.fill K.stmt).visits program) ∧
      ∀ v ∈ Stmt.visitsOfList (Q.after (K.params.map (·.text))) K.body,
        v ∈ (C.fill K.stmt).visits program := by
  obtain ⟨P, hP⟩ := C.exists_visits K.stmt program
  cases K with
  | block token body =>
    refine ⟨P.enter (Stmt.declaresList body), rfl, rfl, List.forall_mem_nil _, fun v hv => ?_⟩
    exact hP v (List.mem_cons_of_mem _ hv)
  | operation o =>
    have ho : ∀ v ∈ o.visits (P.after [o.name.text]), v ∈ (C.fill (.operation o)).visits program :=
      fun v hv => hP v (List.mem_cons_of_mem _ (List.mem_cons_of_mem _ hv))
    rw [Operation.visits_eq, List.forall_mem_append] at ho
    exact ⟨(P.after [o.name.text]).operation o, rfl, rfl, ho⟩
  | method token name earlier o later =>
    obtain ⟨R, hR⟩ := o.exists_visits_around (P.after [name.text]).object earlier later
    have ho : ∀ v ∈ o.visits R,
        v ∈ (C.fill (.object token name (earlier ++ o :: later))).visits program :=
      fun v hv => hP v (List.mem_cons_of_mem _ (List.mem_cons_of_mem _ (hR v hv)))
    rw [Operation.visits_eq, List.forall_mem_append] at ho
    exact ⟨R.operation o, rfl, rfl, ho⟩

namespace Frame.Plain

variable {fs : List Frame}

end Frame.Plain

/-- The name that a visit declares or refers to. -/
def Visit.name? (v : Visit) : Option String :=
  match v.item with
  | .declaration name => some name.text
  | .node (.expr e) => e.reference?.map (·.1)
  | _ => none

section

variable {x y : String} {hx : x ≠ selfName ∧ x ≠ ""} {hy : y ≠ selfName ∧ y ≠ ""}
  {fs : List Frame}

end

section

variable {C : Context} {K : LocalScope} {x y : String}

end

/-- The program that is a single statement. -/
def alone : Context := ⟨[], [], []⟩

end Treescript
