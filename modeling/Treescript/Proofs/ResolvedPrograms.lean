import Treescript.Proofs.BoundLocals
import Treescript.Proofs.LexicalDistance
import Treescript.Proofs.RevisedPlaces

/-!
# Resolved programs

Resolution takes no notice of the numbers of hops that a program has already, so resolving a
resolved program changes nothing, and programs that differ in these numbers only are resolved alike.
-/

namespace Treescript

variable {L : Licence}

theorem Visit.fault?_annotate (look : Numbering) (v : Visit) :
    (v.annotate look).fault? = v.fault? := by
  match v with
  | ⟨.node (.expr e), P⟩ => cases e <;> rfl
  | ⟨.node (.stmt s), P⟩ =>
    match s with
    | .conditional _ _ _ _ none | .conditional _ _ _ _ (some _) => rfl
    | .hole | .expression .. | .print .. | .define .. | .block .. | .operation .. | .arm ..
    | .loop .. | .return .. | .object .. | .enum .. | .form .. => rfl
  | ⟨.member _, _⟩ | ⟨.method _, _⟩ | ⟨.declaration _, _⟩ => rfl

theorem Program.resolve_resolve (p : Program) : p.resolve.program.resolve = p.resolve := by
  have hfaults : Visit.diagnostics (p.resolve.program.visits 0) =
      Visit.diagnostics (p.visits 0) := by
    rw [p.visits_resolve 0, Visit.diagnostics, Visit.diagnostics, List.filterMap_map]
    exact congrArg (List.filterMap · (p.visits 0))
      (funext fun v => congrArg (Option.map _) (v.fault?_annotate _))
  have hann : p.resolve.program.annotated 0 = p.resolve.program := by
    rw [p.resolve_eq 0]
    exact Stmt.annotateList_annotateList ..
  rw [p.resolve.program.resolve_eq 0, hfaults, hann, p.resolve_eq 0]

/-- The program with all numbers of hops taken out. -/
def Program.unnumbered (p : Program) : Program := Stmt.annotateList (fun _ _ => none) (.top 0) p

theorem Program.resolve_congr {p q : Program} (h : p.annotated 0 = q.annotated 0) :
    p.resolve = q.resolve := by
  have heq : p.resolve.program = q.resolve.program := by
    rw [p.resolve_eq 0, q.resolve_eq 0]
    exact h
  rw [← p.resolve_resolve, heq, q.resolve_resolve]

theorem Program.annotated_eq_of_unnumbered {p q : Program} (h : p.unnumbered = q.unnumbered) :
    p.annotated 0 = q.annotated 0 := by
  have hp := Stmt.annotateList_annotateList Place.distance? (fun _ _ => none) (.top 0) (.top 0) p
  have hq := Stmt.annotateList_annotateList Place.distance? (fun _ _ => none) (.top 0) (.top 0) q
  rw [Program.annotated, Program.annotated, ← hp, ← hq]
  exact congrArg _ h

theorem Program.resolve_of_resolved {p q : Program} {ds : List Diagnostic}
    (h : p.resolve = ⟨q, ds⟩) : q.resolve = ⟨q, ds⟩ := by
  have hq := p.resolve_resolve
  rwa [h] at hq

theorem Program.annotate_eq_of_mem {q : Program} {ds : List Diagnostic} (h : q.resolve = ⟨q, ds⟩)
    {v : Visit} (hv : v ∈ q.visits 0) : v.item.annotate Place.distance? v.place = v.item := by
  have hall := q.visits_resolve 0
  rw [h] at hall
  obtain ⟨k, hk⟩ := List.mem_iff_getElem?.1 hv
  have hmap := congrArg (·[k]?) hall
  simp only [List.getElem?_map, hk, Option.map_some, Option.some.injEq] at hmap
  exact (congrArg Visit.item hmap).symm

/-- What is visited in a resolved program without faults is settled, if no fresh name is used. -/
theorem Program.settled_visits {q : Program} (h : q.resolve = ⟨q, []⟩)
    (hr : ∀ e x hops P, ⟨.node (.expr e), P⟩ ∈ q.visits 0 → e.reference? = some (x, hops) →
      ¬L.fresh x)
    (hd : ∀ name P, ⟨.declaration name, P⟩ ∈ q.visits 0 → ¬L.fresh name.text) :
    ∀ v ∈ q.visits 0, v.Settled L := by
  rintro ⟨item, P⟩ hv
  refine ⟨Program.annotate_eq_of_mem h hv,
    Program.fault?_eq_none (congrArg Resolved.diagnostics h) 0 _ hv, ?_, ?_⟩
  · rintro e x hops rfl hx
    exact hr e x hops P hv hx
  · rintro name rfl
    exact hd name P hv

end Treescript
