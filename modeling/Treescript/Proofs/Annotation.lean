import Treescript.Proofs.Places

/-!
# Annotated programs

A program whose references are numbered by a rule that looks only at the place of each reference.
Annotating changes nothing but the numbers: what is visited stays at its place, and of each visited
item it is the item annotated at that place that is visited.
-/

namespace Treescript

/-- A rule that numbers a reference to a name from its place. -/
abbrev Numbering := Place → String → Option Nat

/-- The number of the reference that `self` makes, which exists only inside objects. -/
def Numbering.ofSelf (look : Numbering) (P : Place) : Option Nat :=
  if P.inObject then look P selfName else none

mutual

def Expr.annotate (look : Numbering) (P : Place) : Expr → Expr
  | .hole => .hole
  | .literal token value => .literal token value
  | .variable name _ => .variable name (look P name.text)
  | .assign name value _ => .assign name (value.annotate look P) (look P name.text)
  | .unary operator right => .unary operator (right.annotate look P)
  | .binary left operator right => .binary (left.annotate look P) operator (right.annotate look P)
  | .logical left operator right =>
    .logical (left.annotate look P) operator (right.annotate look P)
  | .count operator target name _ =>
    .count operator (target.annotate look P) name (look P name.text)
  | .call callee paren args =>
    .call (callee.annotate look P) paren (Expr.annotateList look P args)
  | .group token inner => .group token (inner.annotate look P)
  | .self keyword _ => .self keyword (look.ofSelf P)
  | .get object name => .get (object.annotate look P) name
  | .set object name value => .set (object.annotate look P) name (value.annotate look P)
  | .parent name => .parent name
  | .global name => .global name

def Expr.annotateList (look : Numbering) (P : Place) : List Expr → List Expr
  | [] => []
  | e :: es => e.annotate look P :: Expr.annotateList look P es

end

def Definition.annotate (look : Numbering) (P : Place) (d : Definition) : Definition :=
  { d with initial := d.initial.map (·.annotate look P) }

def Definition.annotateMembers (look : Numbering) (P : Place) :
    List Definition → List Definition
  | [] => []
  | d :: rest =>
    d.annotate look P :: Definition.annotateMembers look (P.after [d.name.text]) rest

mutual

def Stmt.annotate (look : Numbering) (P : Place) : Stmt → Stmt
  | .hole => .hole
  | .expression token value => .expression token (value.annotate look P)
  | .print token value => .print token (value.annotate look P)
  | .define d => .define (d.annotate look (P.initializer d.name.text))
  | .block token body =>
    .block token (Stmt.annotateList look (P.enter (Stmt.declaresList body)) body)
  | .operation o => .operation (o.annotate look (P.after [o.name.text]))
  | .conditional token condition branch arms none =>
    .conditional token (condition.annotate look P) (branch.annotate look (P.child 0))
      (Arm.annotateList look ((P.after branch.declares).child 1) arms) none
  | .conditional token condition branch arms (some otherwise) =>
    .conditional token (condition.annotate look P) (branch.annotate look (P.child 0))
      (Arm.annotateList look ((P.after branch.declares).child 1) arms)
      (some (otherwise.annotate look
        ((P.after (branch.declares ++ Arm.declaresList arms)).child 2)))
  | .arm a => .arm (a.annotate look P)
  | .loop token condition body =>
    .loop token (condition.annotate look P) (body.annotate look (P.child 0))
  | .return keyword value => .return keyword (value.map (·.annotate look P))
  | .object token name methods =>
    .object token name (Operation.annotateList look (P.after [name.text]).object methods)
  | .enum token name elements => .enum token name elements
  | .form token name members =>
    .form token name (Definition.annotateMembers look (P.after [name.text]) members)

def Stmt.annotateList (look : Numbering) (P : Place) : List Stmt → List Stmt
  | [] => []
  | s :: ss =>
    s.annotate look (P.child 0) :: Stmt.annotateList look ((P.after s.declares).child 1) ss

def Operation.annotate (look : Numbering) (P : Place) : Operation → Operation
  | o@⟨token, name, params, body⟩ =>
    ⟨token, name, params,
      Stmt.annotateList look ((P.operation o).after (params.map (·.text))) body⟩

def Operation.annotateList (look : Numbering) (P : Place) : List Operation → List Operation
  | [] => []
  | o :: os => o.annotate look (P.child 0) :: Operation.annotateList look (P.child 1) os

def Arm.annotate (look : Numbering) (P : Place) : Arm → Arm
  | ⟨token, condition, branch⟩ => ⟨token, condition.annotate look P, branch.annotate look P⟩

def Arm.annotateList (look : Numbering) (P : Place) : List Arm → List Arm
  | [] => []
  | a :: rest =>
    a.annotate look (P.child 0) :: Arm.annotateList look ((P.after a.declares).child 1) rest

end

def Program.annotated (program : Nat) (p : Program) : Program :=
  Stmt.annotateList Place.distance? (.top program) p

theorem Definition.names_annotateMembers (look : Numbering) (P : Place) (ds : List Definition) :
    (Definition.annotateMembers look P ds).map (·.name.text) = ds.map (·.name.text) := by
  induction ds generalizing P with
  | nil => rfl
  | cons d ds ih => simp only [Definition.annotateMembers, Definition.annotate, List.map_cons, ih]

mutual

@[simp] theorem Stmt.declares_annotate (look : Numbering) (P : Place) (s : Stmt) :
    (s.annotate look P).declares = s.declares := by
  match s with
  | .hole | .expression .. | .print .. | .block .. | .return .. | .enum .. =>
    simp only [Stmt.annotate, Stmt.declares]
  | .define d => simp only [Stmt.annotate, Stmt.declares, Definition.annotate]
  | .operation ⟨_, name, _, _⟩ =>
    simp only [Stmt.annotate, Stmt.declares, Operation.annotate]
  | .conditional _ _ branch arms none =>
    simp only [Stmt.annotate, Stmt.declares, Stmt.declares_annotate look _ branch,
      Arm.declaresList_annotate look _ arms]
  | .conditional _ _ branch arms (some otherwise) =>
    simp only [Stmt.annotate, Stmt.declares, Stmt.declares_annotate look _ branch,
      Arm.declaresList_annotate look _ arms, Stmt.declares_annotate look _ otherwise]
  | .arm a => simp only [Stmt.annotate, Stmt.declares, Arm.declares_annotate look _ a]
  | .loop _ _ body => simp only [Stmt.annotate, Stmt.declares, Stmt.declares_annotate look _ body]
  | .object .. => simp only [Stmt.annotate, Stmt.declares]
  | .form .. => simp only [Stmt.annotate, Stmt.declares, Definition.names_annotateMembers]

@[simp] theorem Arm.declares_annotate (look : Numbering) (P : Place) (a : Arm) :
    (a.annotate look P).declares = a.declares := by
  match a with
  | ⟨_, _, branch⟩ =>
    simp only [Arm.annotate, Arm.declares, Stmt.declares_annotate look _ branch]

@[simp] theorem Arm.declaresList_annotate (look : Numbering) (P : Place) (as : List Arm) :
    Arm.declaresList (Arm.annotateList look P as) = Arm.declaresList as := by
  match as with
  | [] => rfl
  | a :: rest =>
    simp only [Arm.annotateList, Arm.declaresList, Arm.declares_annotate look _ a,
      Arm.declaresList_annotate look _ rest]

end

@[simp] theorem Stmt.declaresList_annotate (look : Numbering) (P : Place) (ss : List Stmt) :
    Stmt.declaresList (Stmt.annotateList look P ss) = Stmt.declaresList ss := by
  induction ss generalizing P with
  | nil => rfl
  | cons s ss ih => simp only [Stmt.annotateList, Stmt.declaresList, Stmt.declares_annotate, ih]

@[simp] theorem Place.operation_annotate (P Q : Place) (look : Numbering) (o : Operation) :
    P.operation (o.annotate look Q) = P.operation o := by
  obtain ⟨_, _, _, _⟩ := o
  simp only [Place.operation, Operation.annotate, Operation.locals, Stmt.declaresList_annotate]

def Item.annotate (look : Numbering) (P : Place) : Item → Item
  | .node (.expr e) => .node (.expr (e.annotate look P))
  | .node (.stmt s) => .node (.stmt (s.annotate look P))
  | .member d => .member (d.annotate look P)
  | .method o => .method (o.annotate look P)
  | .declaration name => .declaration name

theorem Item.exists_of_annotate_eq_expr {look : Numbering} {P : Place} {item : Item} {e : Expr}
    (h : item.annotate look P = .node (.expr e)) :
    ∃ e' : Expr, item = .node (.expr e') ∧ e = e'.annotate look P := by
  rcases item with (e' | s) | d | o | name <;> simp [Item.annotate] at h
  exact ⟨e', rfl, h.symm⟩

def Visit.annotate (look : Numbering) (v : Visit) : Visit :=
  ⟨v.item.annotate look v.place, v.place⟩

mutual

theorem Expr.parts_annotate (look : Numbering) (P : Place) (e : Expr) :
    (e.annotate look P).parts = e.parts.map (·.annotate look P) := by
  match e with
  | .hole | .literal .. | .variable .. | .self .. | .parent .. | .global .. => rfl
  | .assign _ value _ =>
    simp only [Expr.annotate, Expr.parts, List.map_cons, Expr.parts_annotate look P value]
  | .unary _ right =>
    simp only [Expr.annotate, Expr.parts, List.map_cons, Expr.parts_annotate look P right]
  | .binary left _ right | .logical left _ right =>
    simp only [Expr.annotate, Expr.parts, List.map_cons, List.map_append,
      Expr.parts_annotate look P left, Expr.parts_annotate look P right]
  | .count _ target _ _ =>
    simp only [Expr.annotate, Expr.parts, List.map_cons, Expr.parts_annotate look P target]
  | .call callee _ args =>
    simp only [Expr.annotate, Expr.parts, List.map_cons, List.map_append,
      Expr.parts_annotate look P callee, Expr.partsOfList_annotate look P args]
  | .group _ inner =>
    simp only [Expr.annotate, Expr.parts, List.map_cons, Expr.parts_annotate look P inner]
  | .get object _ =>
    simp only [Expr.annotate, Expr.parts, List.map_cons, Expr.parts_annotate look P object]
  | .set object _ value =>
    simp only [Expr.annotate, Expr.parts, List.map_cons, List.map_append,
      Expr.parts_annotate look P object, Expr.parts_annotate look P value]

theorem Expr.partsOfList_annotate (look : Numbering) (P : Place) (es : List Expr) :
    Expr.partsOfList (Expr.annotateList look P es) =
      (Expr.partsOfList es).map (·.annotate look P) := by
  match es with
  | [] => rfl
  | e :: es =>
    simp only [Expr.annotateList, Expr.partsOfList, List.map_append,
      Expr.parts_annotate look P e, Expr.partsOfList_annotate look P es]

end

theorem Expr.visits_annotate (look : Numbering) (P : Place) (e : Expr) :
    (e.annotate look P).visits P = (e.visits P).map (Visit.annotate look) := by
  simp only [Expr.visits, Expr.parts_annotate, List.map_map]
  rfl

theorem Expr.visitsOptional_annotate (look : Numbering) (P : Place) (e? : Option Expr) :
    Expr.visitsOptional P (e?.map (·.annotate look P)) =
      (Expr.visitsOptional P e?).map (Visit.annotate look) := by
  cases e? with
  | none => rfl
  | some e => exact e.visits_annotate look P

theorem Token.visitsOfParams_annotate (look : Numbering) (P : Place) (params : List Token) :
    (Token.visitsOfParams P params).map (Visit.annotate look) = Token.visitsOfParams P params := by
  induction params generalizing P with
  | nil => rfl
  | cons param params ih => simp only [Token.visitsOfParams, List.map_cons, ih]; rfl

theorem Definition.visitsOfMembers_annotate (look : Numbering) (P : Place)
    (ds : List Definition) :
    Definition.visitsOfMembers P (Definition.annotateMembers look P ds) =
      (Definition.visitsOfMembers P ds).map (Visit.annotate look) := by
  induction ds generalizing P with
  | nil => rfl
  | cons d ds ih =>
    have hi := Expr.visitsOptional_annotate look P d.initial
    simp only [Definition.annotateMembers, Definition.visitsOfMembers, List.map_cons,
      List.map_append, ← ih, ← hi]
    rfl

mutual

theorem Stmt.visits_annotate (look : Numbering) (P : Place) (s : Stmt) :
    (s.annotate look P).visits P = (s.visits P).map (Visit.annotate look) := by
  match s with
  | .hole | .enum .. => rfl
  | .expression _ value | .print _ value =>
    simp only [Stmt.annotate, Stmt.visits, List.map_cons, ← Expr.visits_annotate]
    rfl
  | .define d =>
    simp only [Stmt.annotate, Stmt.visits, List.map_cons, ← Expr.visitsOptional_annotate]
    rfl
  | .block _ body =>
    simp only [Stmt.annotate, Stmt.visits, List.map_cons, Stmt.declaresList_annotate,
      Stmt.visitsOfList_annotate look _ body]
    rfl
  | .operation o =>
    have ho := Operation.visits_annotate look (P.after [o.name.text]) o
    obtain ⟨token, name, params, body⟩ := o
    simp only [Stmt.annotate, Stmt.visits, List.map_cons, ← ho]
    rfl
  | .conditional _ condition branch arms none =>
    simp only [Stmt.annotate, Stmt.visits, List.map_cons, List.map_append,
      Stmt.declares_annotate, Expr.visits_annotate, Stmt.visits_annotate look _ branch,
      Arm.visitsOfList_annotate look _ arms]
    rfl
  | .conditional _ condition branch arms (some otherwise) =>
    simp only [Stmt.annotate, Stmt.visits, List.map_cons, List.map_append,
      Stmt.declares_annotate, Arm.declaresList_annotate, Expr.visits_annotate,
      Stmt.visits_annotate look _ branch, Arm.visitsOfList_annotate look _ arms,
      Stmt.visits_annotate look _ otherwise]
    rfl
  | .arm a =>
    simp only [Stmt.annotate, Stmt.visits, List.map_cons, Arm.visits_annotate look _ a]
    rfl
  | .loop _ condition body =>
    simp only [Stmt.annotate, Stmt.visits, List.map_cons, List.map_append,
      Expr.visits_annotate, Stmt.visits_annotate look _ body]
    rfl
  | .return _ value =>
    simp only [Stmt.annotate, Stmt.visits, List.map_cons, Expr.visitsOptional_annotate]
    rfl
  | .object _ name methods =>
    simp only [Stmt.annotate, Stmt.visits, List.map_cons,
      Operation.visitsOfList_annotate look _ methods]
    rfl
  | .form _ name members =>
    simp only [Stmt.annotate, Stmt.visits, List.map_cons, Definition.visitsOfMembers_annotate]
    rfl

theorem Stmt.visitsOfList_annotate (look : Numbering) (P : Place) (ss : List Stmt) :
    Stmt.visitsOfList P (Stmt.annotateList look P ss) =
      (Stmt.visitsOfList P ss).map (Visit.annotate look) := by
  match ss with
  | [] => rfl
  | s :: ss =>
    simp only [Stmt.annotateList, Stmt.visitsOfList, List.map_append, Stmt.declares_annotate,
      Stmt.visits_annotate look _ s, Stmt.visitsOfList_annotate look _ ss]

theorem Operation.visits_annotate (look : Numbering) (P : Place) (o : Operation) :
    (o.annotate look P).visits P = (o.visits P).map (Visit.annotate look) := by
  match o with
  | ⟨token, name, params, body⟩ =>
    have hp := Place.operation_annotate P P look ⟨token, name, params, body⟩
    simp only [Operation.annotate] at hp
    simp only [Operation.annotate, Operation.visits, List.map_append, hp,
      Token.visitsOfParams_annotate, Stmt.visitsOfList_annotate look _ body]

theorem Operation.visitsOfList_annotate (look : Numbering) (P : Place) (os : List Operation) :
    Operation.visitsOfList P (Operation.annotateList look P os) =
      (Operation.visitsOfList P os).map (Visit.annotate look) := by
  match os with
  | [] => rfl
  | o :: os =>
    simp only [Operation.annotateList, Operation.visitsOfList, List.map_cons, List.map_append,
      Operation.visits_annotate look _ o, Operation.visitsOfList_annotate look _ os]
    rfl

theorem Arm.visits_annotate (look : Numbering) (P : Place) (a : Arm) :
    (a.annotate look P).visits P = (a.visits P).map (Visit.annotate look) := by
  match a with
  | ⟨_, condition, branch⟩ =>
    simp only [Arm.annotate, Arm.visits, List.map_append, Expr.visits_annotate,
      Stmt.visits_annotate look _ branch]

theorem Arm.visitsOfList_annotate (look : Numbering) (P : Place) (as : List Arm) :
    Arm.visitsOfList P (Arm.annotateList look P as) =
      (Arm.visitsOfList P as).map (Visit.annotate look) := by
  match as with
  | [] => rfl
  | a :: rest =>
    simp only [Arm.annotateList, Arm.visitsOfList, List.map_cons, List.map_append,
      Arm.declares_annotate, Arm.visits_annotate look _ a, Arm.visitsOfList_annotate look _ rest]
    rfl

end

end Treescript
