import Mathlib.Data.List.Nodup
import Treescript.Proofs.ResolverWalk
import Treescript.Proofs.Revisions

/-!
# Distinct names

A local scope that resolution finds no fault with declares each of its names once. So a name that it
gives to a variable is not that of an operation, a type or a form member as well.
-/

namespace Treescript

/-- The names that the innermost local scope declares before a place. -/
def Place.seen (P : Place) : List String := P.layers.head?.elim [] (·.seen)

/-- A place in a local scope that has declared no name twice. -/
structure Place.Tidy (P : Place) : Prop where
  isLocal : P.isLocal
  nodup : P.seen.Nodup

namespace Place

theorem seen_after {P : Place} (h : P.isLocal) (names : List String) :
    (P.after names).seen = P.seen ++ names := by
  obtain ⟨_, _, layers, _, _, _⟩ := P
  cases layers with
  | nil => cases h
  | cons layer outer => rfl

theorem isLocal_after {P : Place} (h : P.isLocal) (names : List String) :
    (P.after names).isLocal := by
  obtain ⟨_, _, layers, _, _, _⟩ := P
  cases layers with
  | nil => cases h
  | cons layer outer => rfl

theorem declared_of_mem_seen {P : Place} {x : String} (h : x ∈ P.seen) : P.Declared 0 x := by
  obtain ⟨_, _, layers, _, _, _⟩ := P
  cases layers with
  | nil => cases h
  | cons layer outer => exact ⟨layer, rfl, h⟩

namespace Tidy

variable {P : Place}

theorem child (h : P.Tidy) (i : Nat) : (P.child i).Tidy := ⟨h.isLocal, h.nodup⟩

theorem of_child {i : Nat} {names : List String} (h : ((P.child i).after names).Tidy) :
    (P.after names).Tidy := ⟨h.isLocal, h.nodup⟩

theorem after_nil (h : P.Tidy) : (P.after []).Tidy := by
  rwa [P.after_nil]

/-- Without a fault the name of a declaration is a new one. -/
theorem declare (h : P.Tidy) {name : Token}
    (hv : Visit.fault? ⟨.declaration name, P⟩ = none) : (P.after [name.text]).Tidy := by
  have hnew : name.text ∉ P.seen := by
    intro hmem
    simp only [Visit.fault?, if_pos (declared_of_mem_seen hmem)] at hv
    cases hv
  refine ⟨isLocal_after h.isLocal _, ?_⟩
  rw [seen_after h.isLocal, List.nodup_append]
  refine ⟨h.nodup, List.nodup_singleton _, ?_⟩
  rintro x hx _ hname rfl
  exact hnew (List.mem_singleton.1 hname ▸ hx)

end Tidy

end Place

theorem Token.tidy_after {P : Place} (h : P.Tidy) (params : List Token)
    (hv : ∀ v ∈ Token.visitsOfParams P params, v.fault? = none) :
    (P.after (params.map (·.text))).Tidy := by
  induction params generalizing P with
  | nil => exact h.after_nil
  | cons param params ih =>
    obtain ⟨hparam, hrest⟩ := List.forall_mem_cons.1 hv
    rw [List.map_cons, Place.after_cons]
    exact ih (h.declare hparam) hrest

theorem Definition.tidy_after {P : Place} (h : P.Tidy) (ds : List Definition)
    (hv : ∀ v ∈ Definition.visitsOfMembers P ds, v.fault? = none) :
    (P.after (ds.map (·.name.text))).Tidy := by
  induction ds generalizing P with
  | nil => exact h.after_nil
  | cons d ds ih =>
    simp only [Definition.visitsOfMembers, List.cons_append, List.forall_mem_cons,
      List.forall_mem_append] at hv
    obtain ⟨-, -, hname, hrest⟩ := hv
    rw [List.map_cons, Place.after_cons]
    exact ih (h.declare hname) hrest

-- Each part of a conditional begins where the names of the part before it have been declared.
mutual

theorem Stmt.tidy_after {P : Place} (h : P.Tidy) (s : Stmt)
    (hv : ∀ v ∈ s.visits P, v.fault? = none) : (P.after s.declares).Tidy := by
  match s with
  | .hole | .expression .. | .print .. | .block .. | .return .. => exact h.after_nil
  | .define _ | .operation _ | .object _ _ _ | .enum _ _ _ =>
    simp only [Stmt.visits, List.forall_mem_cons] at hv
    exact h.declare hv.2.1
  | .conditional _ _ branch arms none =>
    simp only [Stmt.visits, List.cons_append, List.forall_mem_cons, List.forall_mem_append] at hv
    obtain ⟨-, ⟨-, hbranch⟩, harms⟩ := hv
    have hfirst := (Stmt.tidy_after (h.child 0) branch hbranch).of_child
    rw [Stmt.declares, Place.after_append]
    exact (Arm.tidy_afterList (hfirst.child 1) arms harms).of_child
  | .conditional _ _ branch arms (some last) =>
    simp only [Stmt.visits, List.cons_append, List.forall_mem_cons, List.forall_mem_append] at hv
    obtain ⟨-, ⟨⟨-, hbranch⟩, harms⟩, hlast⟩ := hv
    have hfirst := (Stmt.tidy_after (h.child 0) branch hbranch).of_child
    have hboth := (Arm.tidy_afterList (hfirst.child 1) arms harms).of_child
    rw [← Place.after_append] at hboth
    rw [Stmt.declares, Place.after_append]
    exact (Stmt.tidy_after (hboth.child 2) last hlast).of_child
  | .arm a =>
    simp only [Stmt.visits, List.forall_mem_cons] at hv
    exact Arm.tidy_after h a hv.2
  | .loop _ _ body =>
    simp only [Stmt.visits, List.cons_append, List.forall_mem_cons, List.forall_mem_append] at hv
    exact (Stmt.tidy_after (h.child 0) body hv.2.2).of_child
  | .form _ name members =>
    simp only [Stmt.visits, List.forall_mem_cons] at hv
    obtain ⟨-, hname, hmembers⟩ := hv
    rw [Stmt.declares, Place.after_cons]
    exact Definition.tidy_after (h.declare hname) members hmembers

theorem Arm.tidy_after {P : Place} (h : P.Tidy) (a : Arm)
    (hv : ∀ v ∈ a.visits P, v.fault? = none) : (P.after a.declares).Tidy := by
  match a with
  | ⟨_, _, branch⟩ =>
    rw [Arm.visits, List.forall_mem_append] at hv
    exact Stmt.tidy_after h branch hv.2

theorem Arm.tidy_afterList {P : Place} (h : P.Tidy) (as : List Arm)
    (hv : ∀ v ∈ Arm.visitsOfList P as, v.fault? = none) : (P.after (Arm.declaresList as)).Tidy := by
  match as with
  | [] => exact h.after_nil
  | a :: rest =>
    simp only [Arm.visitsOfList, List.cons_append, List.forall_mem_cons,
      List.forall_mem_append] at hv
    obtain ⟨-, ha, hrest⟩ := hv
    have hfirst := (Arm.tidy_after (h.child 0) a ha).of_child
    rw [Arm.declaresList, Place.after_append]
    exact (Arm.tidy_afterList (hfirst.child 1) rest hrest).of_child

end

theorem Stmt.tidy_afterList {P : Place} (h : P.Tidy) (ss : List Stmt)
    (hv : ∀ v ∈ Stmt.visitsOfList P ss, v.fault? = none) :
    (P.after (Stmt.declaresList ss)).Tidy := by
  induction ss generalizing P with
  | nil => exact h.after_nil
  | cons s ss ih =>
    rw [Stmt.visitsOfList, List.forall_mem_append] at hv
    have hfirst := (Stmt.tidy_after (h.child 0) s hv.1).of_child
    rw [Stmt.declaresList, Place.after_append]
    exact (ih (hfirst.child 1) hv.2).of_child

end Treescript
