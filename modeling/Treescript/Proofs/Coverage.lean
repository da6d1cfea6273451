import Mathlib.Data.List.Perm.Basic
import Treescript.Proofs.Places

/-!
# Every node is visited once

The visits of a program are its nodes, each of them once. Their order is that of resolution, which
comes to the value of a `set` before the object.
-/

namespace Treescript

open List

/-- The node of the tree that a visit comes to. -/
def Visit.node? (v : Visit) : Option Node :=
  match v.item with
  | .node (.expr .hole) => none
  | .node (.stmt .hole) => none
  | .node n => some n
  | .member d => some (.stmt (.define d))
  | .method o => some (.stmt (.operation o))
  | .declaration _ => none

def Visit.nodes (vs : List Visit) : List Node := vs.filterMap Visit.node?

theorem Visit.nodes_append (vs ws : List Visit) :
    Visit.nodes (vs ++ ws) = Visit.nodes vs ++ Visit.nodes ws := List.filterMap_append

mutual

theorem Expr.nodes_visits_perm (P : Place) (e : Expr) : Visit.nodes (e.visits P) ~ e.nodes := by
  match e with
  | .hole | .literal .. | .variable .. | .self .. | .parent .. | .global .. => exact .refl _
  | .assign _ value _ => exact (value.nodes_visits_perm P).cons _
  | .unary _ right => exact (right.nodes_visits_perm P).cons _
  | .binary left _ right | .logical left _ right =>
    have h := (left.nodes_visits_perm P).append (right.nodes_visits_perm P)
    rw [← Visit.nodes_append, Expr.visits, Expr.visits, ← List.map_append] at h
    exact h.cons _
  | .count _ target _ _ => exact (target.nodes_visits_perm P).cons _
  | .call callee _ args =>
    have h := (callee.nodes_visits_perm P).append (Expr.nodesOfList_visits_perm P args)
    rw [← Visit.nodes_append, Expr.visits, ← List.map_append] at h
    exact h.cons _
  | .group _ inner => exact (inner.nodes_visits_perm P).cons _
  | .get object _ => exact (object.nodes_visits_perm P).cons _
  | .set object _ value =>
    have h := (value.nodes_visits_perm P).append (object.nodes_visits_perm P)
    rw [← Visit.nodes_append, Expr.visits, Expr.visits, ← List.map_append] at h
    exact (h.trans perm_append_comm).cons _

theorem Expr.nodesOfList_visits_perm (P : Place) (es : List Expr) :
    Visit.nodes ((Expr.partsOfList es).map fun part => ⟨.node (.expr part), P⟩) ~
      Expr.nodesOfList es := by
  match es with
  | [] => exact .refl _
  | e :: es =>
    have h := (e.nodes_visits_perm P).append (Expr.nodesOfList_visits_perm P es)
    rw [← Visit.nodes_append, Expr.visits, ← List.map_append] at h
    exact h

end

theorem Expr.nodes_visitsOptional_perm (P : Place) (e? : Option Expr) :
    Visit.nodes (Expr.visitsOptional P e?) ~ e?.toList.flatMap Expr.nodes := by
  cases e? with
  | none => exact .refl _
  | some e =>
    rw [Option.toList_some, List.flatMap_singleton]
    exact e.nodes_visits_perm P

theorem Token.nodes_visitsOfParams (P : Place) (params : List Token) :
    Visit.nodes (Token.visitsOfParams P params) = [] := by
  induction params generalizing P with
  | nil => rfl
  | cons param params ih => exact ih _

theorem Definition.nodes_visitsOfMembers_perm (P : Place) (ds : List Definition) :
    Visit.nodes (Definition.visitsOfMembers P ds) ~ ds.flatMap Definition.nodes := by
  induction ds generalizing P with
  | nil => exact .refl _
  | cons d ds ih =>
    have h := (Expr.nodes_visitsOptional_perm P d.initial).append (ih (P.after [d.name.text]))
    rw [Definition.visitsOfMembers, Visit.nodes_append, List.flatMap_cons]
    exact h.cons _

mutual

theorem Stmt.nodes_visits_perm (P : Place) (s : Stmt) : Visit.nodes (s.visits P) ~ s.nodes := by
  match s with
  | .hole | .enum .. => exact .refl _
  | .expression _ value | .print _ value => exact (value.nodes_visits_perm P).cons _
  | .define d => exact (Expr.nodes_visitsOptional_perm _ d.initial).cons _
  | .block _ body => exact (Stmt.nodes_visitsOfList_perm _ body).cons _
  | .operation o =>
    have h := (Operation.nodes_visits_perm (P.after [o.name.text]) o).cons
      (Node.stmt (.operation o))
    obtain ⟨_, _, _, _⟩ := o
    exact h
  | .conditional _ condition branch arms none =>
    have h := ((condition.nodes_visits_perm P).append
      (branch.nodes_visits_perm (P.child 0))).append
      (Arm.nodes_visitsOfList_perm ((P.after branch.declares).child 1) arms)
    rw [Stmt.visits, Visit.nodes_append, Visit.nodes_append, Stmt.nodes, List.append_nil]
    exact h.cons _
  | .conditional _ condition branch arms (some otherwise) =>
    have h := (((condition.nodes_visits_perm P).append
      (branch.nodes_visits_perm (P.child 0))).append
      (Arm.nodes_visitsOfList_perm ((P.after branch.declares).child 1) arms)).append
      (otherwise.nodes_visits_perm
        ((P.after (branch.declares ++ Arm.declaresList arms)).child 2))
    rw [Stmt.visits, Visit.nodes_append, Visit.nodes_append, Visit.nodes_append]
    exact h.cons _
  | .arm a => exact Arm.nodes_visits_perm P a
  | .loop _ condition body =>
    have h := (condition.nodes_visits_perm P).append (body.nodes_visits_perm (P.child 0))
    rw [Stmt.visits, Visit.nodes_append]
    exact h.cons _
  | .return _ value => exact (Expr.nodes_visitsOptional_perm P value).cons _
  | .object _ name methods => exact (Operation.nodes_visitsOfList_perm _ methods).cons _
  | .form _ name members => exact (Definition.nodes_visitsOfMembers_perm _ members).cons _

theorem Stmt.nodes_visitsOfList_perm (P : Place) (ss : List Stmt) :
    Visit.nodes (Stmt.visitsOfList P ss) ~ Stmt.nodesOfList ss := by
  match ss with
  | [] => exact .refl _
  | s :: ss =>
    rw [Stmt.visitsOfList, Visit.nodes_append]
    exact (s.nodes_visits_perm _).append (Stmt.nodes_visitsOfList_perm _ ss)

/-- The visits of an operation, without the operation itself. -/
theorem Operation.nodes_visits_perm (P : Place) (o : Operation) :
    Visit.nodes (o.visits P) ~ Stmt.nodesOfList o.body := by
  match o with
  | ⟨_, _, params, body⟩ =>
    rw [Operation.visits, Visit.nodes_append, Token.nodes_visitsOfParams, List.nil_append]
    exact Stmt.nodes_visitsOfList_perm _ body

theorem Operation.nodes_visitsOfList_perm (P : Place) (os : List Operation) :
    Visit.nodes (Operation.visitsOfList P os) ~ Operation.nodesOfList os := by
  match os with
  | [] => exact .refl _
  | o :: os =>
    have h := ((Operation.nodes_visits_perm (P.child 0) o).cons (Node.stmt (.operation o))).append
      (Operation.nodes_visitsOfList_perm (P.child 1) os)
    obtain ⟨_, _, _, _⟩ := o
    rw [Operation.visitsOfList, Visit.nodes_append]
    exact h

theorem Arm.nodes_visits_perm (P : Place) (a : Arm) :
    Visit.nodes (⟨.node (.stmt (.arm a)), P⟩ :: a.visits P) ~ a.nodes := by
  match a with
  | ⟨_, condition, branch⟩ =>
    have h := (condition.nodes_visits_perm P).append (branch.nodes_visits_perm P)
    rw [← Visit.nodes_append] at h
    exact h.cons _

theorem Arm.nodes_visitsOfList_perm (P : Place) (as : List Arm) :
    Visit.nodes (Arm.visitsOfList P as) ~ Arm.nodesOfList as := by
  match as with
  | [] => exact .refl _
  | a :: rest =>
    have h := (Arm.nodes_visits_perm (P.child 0) a).append
      (Arm.nodes_visitsOfList_perm ((P.after a.declares).child 1) rest)
    rw [Arm.visitsOfList, Visit.nodes_append]
    exact h

end

theorem Program.nodes_visits_perm (program : Nat) (p : Program) :
    Visit.nodes (p.visits program) ~ p.nodes :=
  Stmt.nodes_visitsOfList_perm (.top program) p

end Treescript
