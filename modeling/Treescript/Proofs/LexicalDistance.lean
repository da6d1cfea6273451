import Mathlib.Order.Bounds.Basic
import Treescript.Proofs.ResolverWalk

/-!
# Hops are lexical distances

What resolution writes into the nodes that name a variable. A node gets a number of hops exactly
when a local scope around it declares the name before it, and they lead to the nearest such scope.
-/

namespace Treescript

/-- The number of hops that a node has been given. -/
def Expr.hops? : Expr → Option Nat
  | .variable _ hops | .assign _ _ hops | .count _ _ _ hops | .self _ hops => hops
  | _ => none

/-- The variable that a node at a place refers to. Outside objects `self` refers to nothing. -/
def Expr.refersTo? (P : Place) : Expr → Option String
  | .variable name _ | .assign name _ _ | .count _ _ name _ => some name.text
  | .self .. => if P.inObject then some selfName else none
  | _ => none

theorem Place.distance?_eq_some_iff {P : Place} {x : String} {D : Nat} :
    P.distance? x = some D ↔ IsLeast {k | P.Declared k x} D := by
  rw [Place.distance?, List.findIdx?_eq_some_iff_getElem]
  constructor
  · rintro ⟨hD, hx, hbefore⟩
    refine ⟨⟨P.layers[D], by simp [hD], of_decide_eq_true hx⟩, ?_⟩
    rintro k ⟨layer, hk, hs⟩
    obtain ⟨hlt, rfl⟩ := List.getElem?_eq_some_iff.1 hk
    by_contra hless
    exact hbefore k (by omega) (decide_eq_true hs)
  · rintro ⟨⟨layer, hl, hs⟩, hleast⟩
    obtain ⟨hD, rfl⟩ := List.getElem?_eq_some_iff.1 hl
    refine ⟨hD, decide_eq_true hs, fun k hk hx => ?_⟩
    have hle := hleast (show P.Declared k x from ⟨P.layers[k], by simp, of_decide_eq_true hx⟩)
    omega

theorem Expr.hops?_annotate (look : Numbering) (P : Place) (e : Expr) :
    (e.annotate look P).hops? = ((e.annotate look P).refersTo? P).bind (look P) := by
  cases e with
  | self keyword hops =>
    by_cases h : P.inObject <;> simp [annotate, hops?, refersTo?, Numbering.ofSelf, h]
  | _ => rfl

theorem Program.visits_resolve (program : Nat) (p : Program) :
    p.resolve.program.visits program = (p.visits program).map (Visit.annotate Place.distance?) := by
  rw [p.resolve_eq program]
  exact Stmt.visitsOfList_annotate Place.distance? (.top program) p

/-- Resolution gives a node `D` hops if and only if it refers to a variable and the `D`-th
local scope around it is the nearest that declares the variable before it. Nodes and places are
those of the program before resolution, and all nodes are visited. -/
theorem Program.hops_iff_isLeast_declared (program : Nat) (p : Program) :
    p.resolve.program.visits program = (p.visits program).map (Visit.annotate Place.distance?) ∧
    (Visit.nodes (p.resolve.program.visits program)).Perm p.resolve.program.nodes ∧
    ∀ e P, ⟨.node (.expr e), P⟩ ∈ p.resolve.program.visits program → ∀ D,
      e.hops? = some D ↔ ∃ x, e.refersTo? P = some x ∧ IsLeast {k | P.Declared k x} D := by
  refine ⟨p.visits_resolve program, Program.nodes_visits_perm program _, ?_⟩
  intro e P hmem D
  rw [p.visits_resolve program] at hmem
  obtain ⟨v, -, hv⟩ := List.mem_map.1 hmem
  obtain ⟨hi, rfl⟩ := Visit.mk.inj hv
  obtain ⟨e', -, rfl⟩ := Item.exists_of_annotate_eq_expr hi
  rw [Expr.hops?_annotate, Option.bind_eq_some_iff]
  simp only [Place.distance?_eq_some_iff]

/-- A block that declares `x`, with a block in it that prints `x`. -/
def nestedRead : Program :=
  [.block .blank [.define ⟨.blank, ⟨.identifier, "x", 1, .null⟩, none⟩,
    .block .blank [.print .blank (.variable ⟨.identifier, "x", 2, .null⟩ none)]]]

theorem nestedRead_hops : ∃ e P, ⟨.node (.expr e), P⟩ ∈ nestedRead.resolve.program.visits 0 ∧
    e.hops? = some 1 ∧ IsLeast {k | P.Declared k "x"} 1 := by
  have hread : (nestedRead.resolve.program.visits 0)[5]? =
      some ⟨.node (.expr (.variable ⟨.identifier, "x", 2, .null⟩ (some 1))), _⟩ := rfl
  have hmem := List.mem_of_getElem? hread
  refine ⟨_, _, hmem, rfl, ?_⟩
  obtain ⟨x, hx, hleast⟩ := ((nestedRead.hops_iff_isLeast_declared 0).2.2 _ _ hmem 1).1 rfl
  obtain rfl : "x" = x := Option.some.inj hx
  exact hleast

end Treescript
