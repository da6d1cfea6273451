import Mathlib.Data.List.Forall2
import Treescript.Proofs.ResolverWalk

/-!
# Respelled trees

A spelling gives every name of a tree another word, whatever the name is for: variables, parameters,
operations, types, elements, members and properties alike. The keyword `self` is no name. If the
words of different names are different, then the respelled tree breaks the same rules at the same
visits: resolution compares names with each other and with nothing else.
-/

namespace Treescript

/-- A name that gets another word becomes an identifier. -/
def Token.respelled (σ : String → String) (t : Token) : Token :=
  if σ t.text = t.text then t else ⟨.identifier, σ t.text, t.row, .null⟩

@[simp] theorem Token.text_respelled (σ : String → String) (t : Token) :
    (t.respelled σ).text = σ t.text := by
  rw [respelled]
  split
  · next h => exact h.symm
  · rfl

theorem Token.respelled_identifier (σ : String → String) (s : String) (row : Int) :
    Token.respelled σ ⟨.identifier, s, row, .null⟩ = ⟨.identifier, σ s, row, .null⟩ := by
  rw [respelled]
  split
  · next h => rw [h]
  · rfl

@[simp] theorem Token.respelled_id (t : Token) : t.respelled id = t := if_pos rfl

mutual

def Expr.respelled (σ : String → String) : Expr → Expr
  | .hole => .hole
  | .literal token value => .literal token value
  | .variable name hops => .variable (name.respelled σ) hops
  | .assign name value hops => .assign (name.respelled σ) (value.respelled σ) hops
  | .unary operator right => .unary operator (right.respelled σ)
  | .binary left operator right => .binary (left.respelled σ) operator (right.respelled σ)
  | .logical left operator right => .logical (left.respelled σ) operator (right.respelled σ)
  | .count operator target name hops =>
    .count operator (target.respelled σ) (name.respelled σ) hops
  | .call callee paren args => .call (callee.respelled σ) paren (Expr.respelledList σ args)
  | .group token inner => .group token (inner.respelled σ)
  | .self keyword hops => .self keyword hops
  | .get object name => .get (object.respelled σ) (name.respelled σ)
  | .set object name value =>
    .set (object.respelled σ) (name.respelled σ) (value.respelled σ)
  | .parent name => .parent (name.respelled σ)
  | .global name => .global (name.respelled σ)

def Expr.respelledList (σ : String → String) : List Expr → List Expr
  | [] => []
  | e :: es => e.respelled σ :: Expr.respelledList σ es

end

def Definition.respelled (σ : String → String) (d : Definition) : Definition :=
  ⟨d.token, d.name.respelled σ, d.initial.map (·.respelled σ)⟩

/-- The token of an expression statement repeats the text of its expression. -/
def Token.following (σ : String → String) (t : Token) (value : Expr) : Token :=
  if t.text = value.token.text then { t with text := (value.respelled σ).token.text } else t

mutual

def Stmt.respelled (σ : String → String) : Stmt → Stmt
  | .hole => .hole
  | .expression token value => .expression (token.following σ value) (value.respelled σ)
  | .print token value => .print token (value.respelled σ)
  | .define d => .define (d.respelled σ)
  | .block token body => .block token (Stmt.respelledList σ body)
  | .operation o => .operation (o.respelled σ)
  | .conditional token condition branch arms none =>
    .conditional token (condition.respelled σ) (branch.respelled σ) (Arm.respelledList σ arms) none
  | .conditional token condition branch arms (some otherwise) =>
    .conditional token (condition.respelled σ) (branch.respelled σ) (Arm.respelledList σ arms)
      (some (otherwise.respelled σ))
  | .arm a => .arm (a.respelled σ)
  | .loop token condition body => .loop token (condition.respelled σ) (body.respelled σ)
  | .return keyword value => .return keyword (value.map (·.respelled σ))
  | .object token name methods =>
    .object token (name.respelled σ) (Operation.respelledList σ methods)
  | .enum token name elements =>
    .enum token (name.respelled σ) (elements.map (·.respelled σ))
  | .form token name members =>
    .form token (name.respelled σ) (members.map (·.respelled σ))

def Stmt.respelledList (σ : String → String) : List Stmt → List Stmt
  | [] => []
  | s :: ss => s.respelled σ :: Stmt.respelledList σ ss

def Operation.respelled (σ : String → String) : Operation → Operation
  | ⟨token, name, params, body⟩ =>
    ⟨token, name.respelled σ, params.map (·.respelled σ), Stmt.respelledList σ body⟩

def Operation.respelledList (σ : String → String) : List Operation → List Operation
  | [] => []
  | o :: os => o.respelled σ :: Operation.respelledList σ os

def Arm.respelled (σ : String → String) : Arm → Arm
  | ⟨token, condition, branch⟩ => ⟨token, condition.respelled σ, branch.respelled σ⟩

def Arm.respelledList (σ : String → String) : List Arm → List Arm
  | [] => []
  | a :: rest => a.respelled σ :: Arm.respelledList σ rest

end

def Program.respelled (σ : String → String) (p : Program) : Program := Stmt.respelledList σ p

section Identity

mutual

theorem Expr.respelled_id (e : Expr) : e.respelled id = e := by
  match e with
  | .hole | .literal .. | .variable .. | .self .. | .parent .. | .global .. =>
    simp [Expr.respelled]
  | .assign _ value _ | .group _ value | .get value _ | .unary _ value | .count _ value _ _ =>
    simp [Expr.respelled, Expr.respelled_id value]
  | .binary left _ right | .logical left _ right | .set left _ right =>
    simp [Expr.respelled, Expr.respelled_id left, Expr.respelled_id right]
  | .call callee _ args =>
    simp [Expr.respelled, Expr.respelled_id callee, Expr.respelledList_id args]

theorem Expr.respelledList_id (es : List Expr) : Expr.respelledList id es = es := by
  match es with
  | [] => rfl
  | e :: es => simp [Expr.respelledList, Expr.respelled_id e, Expr.respelledList_id es]

end

theorem Definition.respelled_id (d : Definition) : d.respelled id = d := by
  simp [Definition.respelled, Expr.respelled_id]

theorem Token.following_id (t : Token) (value : Expr) : t.following id value = t := by
  rw [following, Expr.respelled_id]
  split
  · next h => rw [← h]
  · rfl

mutual

theorem Stmt.respelled_id (s : Stmt) : s.respelled id = s := by
  match s with
  | .hole => rfl
  | .expression .. | .print .. | .define .. | .return .. | .enum .. | .form .. =>
    simp [Stmt.respelled, Token.following_id, Expr.respelled_id, Definition.respelled_id]
  | .block _ body => simp [Stmt.respelled, Stmt.respelledList_id body]
  | .operation o => simp [Stmt.respelled, Operation.respelled_id o]
  | .conditional _ condition branch arms none =>
    simp [Stmt.respelled, Expr.respelled_id, Stmt.respelled_id branch, Arm.respelledList_id arms]
  | .conditional _ condition branch arms (some otherwise) =>
    simp [Stmt.respelled, Expr.respelled_id, Stmt.respelled_id branch, Arm.respelledList_id arms,
      Stmt.respelled_id otherwise]
  | .arm a => simp [Stmt.respelled, Arm.respelled_id a]
  | .loop _ condition body => simp [Stmt.respelled, Expr.respelled_id, Stmt.respelled_id body]
  | .object _ name methods => simp [Stmt.respelled, Operation.respelledList_id methods]

theorem Stmt.respelledList_id (ss : List Stmt) : Stmt.respelledList id ss = ss := by
  match ss with
  | [] => rfl
  | s :: ss => simp [Stmt.respelledList, Stmt.respelled_id s, Stmt.respelledList_id ss]

theorem Operation.respelled_id (o : Operation) : o.respelled id = o := by
  match o with
  | ⟨_, _, _, body⟩ => simp [Operation.respelled, Stmt.respelledList_id body]

theorem Operation.respelledList_id (os : List Operation) : Operation.respelledList id os = os := by
  match os with
  | [] => rfl
  | o :: os => simp [Operation.respelledList, Operation.respelled_id o,
      Operation.respelledList_id os]

theorem Arm.respelled_id (a : Arm) : a.respelled id = a := by
  match a with
  | ⟨_, _, branch⟩ => simp [Arm.respelled, Expr.respelled_id, Stmt.respelled_id branch]

theorem Arm.respelledList_id (as : List Arm) : Arm.respelledList id as = as := by
  match as with
  | [] => rfl
  | a :: as => simp [Arm.respelledList, Arm.respelled_id a, Arm.respelledList_id as]

end

theorem Program.respelled_id (p : Program) : p.respelled id = p := Stmt.respelledList_id p

end Identity

section Declarations

variable (σ : String → String)

theorem Definition.names_respelled (ds : List Definition) :
    (ds.map (·.respelled σ)).map (·.name.text) = (ds.map (·.name.text)).map σ := by
  simp [Definition.respelled]

theorem Token.texts_respelled (ts : List Token) :
    (ts.map (·.respelled σ)).map (·.text) = (ts.map (·.text)).map σ := by
  simp

mutual

theorem Stmt.declares_respelled (s : Stmt) : (s.respelled σ).declares = s.declares.map σ := by
  match s with
  | .hole | .expression .. | .print .. | .block .. | .return .. => rfl
  | .define _ | .object .. | .enum .. => simp [Stmt.respelled, Stmt.declares, Definition.respelled]
  | .operation ⟨_, _, _, _⟩ => simp [Stmt.respelled, Operation.respelled, Stmt.declares]
  | .form _ _ members =>
    simp only [Stmt.respelled, Stmt.declares, List.map_cons, Token.text_respelled,
      Definition.names_respelled]
  | .conditional _ _ branch arms none =>
    simp [Stmt.respelled, Stmt.declares, Stmt.declares_respelled branch,
      Arm.declaresList_respelled arms]
  | .conditional _ _ branch arms (some otherwise) =>
    simp [Stmt.respelled, Stmt.declares, Stmt.declares_respelled branch,
      Arm.declaresList_respelled arms, Stmt.declares_respelled otherwise]
  | .arm a => simp [Stmt.respelled, Stmt.declares, Arm.declares_respelled a]
  | .loop _ _ body => simp [Stmt.respelled, Stmt.declares, Stmt.declares_respelled body]

theorem Arm.declares_respelled (a : Arm) : (a.respelled σ).declares = a.declares.map σ := by
  match a with
  | ⟨_, _, branch⟩ => simp [Arm.respelled, Arm.declares, Stmt.declares_respelled branch]

theorem Arm.declaresList_respelled (as : List Arm) :
    Arm.declaresList (Arm.respelledList σ as) = (Arm.declaresList as).map σ := by
  match as with
  | [] => rfl
  | a :: as =>
    simp [Arm.respelledList, Arm.declaresList, Arm.declares_respelled a,
      Arm.declaresList_respelled as]

end

mutual

theorem Expr.parts_respelled (e : Expr) :
    (e.respelled σ).parts = e.parts.map (·.respelled σ) := by
  match e with
  | .hole | .literal .. | .variable .. | .self .. | .parent .. | .global .. =>
    simp [Expr.respelled, Expr.parts]
  | .assign _ value _ | .group _ value | .get value _ | .unary _ value | .count _ value _ _ =>
    simp [Expr.respelled, Expr.parts, Expr.parts_respelled value]
  | .binary left _ right | .logical left _ right | .set left _ right =>
    simp [Expr.respelled, Expr.parts, Expr.parts_respelled left, Expr.parts_respelled right]
  | .call callee _ args =>
    simp [Expr.respelled, Expr.parts, Expr.parts_respelled callee,
      Expr.partsOfList_respelled args]

theorem Expr.partsOfList_respelled (es : List Expr) :
    Expr.partsOfList (Expr.respelledList σ es) = (Expr.partsOfList es).map (·.respelled σ) := by
  match es with
  | [] => rfl
  | e :: es =>
    simp [Expr.respelledList, Expr.partsOfList, Expr.parts_respelled e,
      Expr.partsOfList_respelled es]

end

end Declarations

/-- The name that is introduced at a visit. The methods of an object are introduced too, though not
as variables. -/
def Visit.introduces? (v : Visit) : Option String :=
  match v.item with
  | .declaration name => some name.text
  | .method o => some o.name.text
  | _ => none

/-- The names that a program introduces, at any depth. -/
def Program.introduced (p : Program) : List String := (p.visits 0).filterMap Visit.introduces?

/-- The places are in the same constructs. -/
structure Place.Matches (σ : String → String) (P P' : Place) : Prop where
  inOperation : P'.inOperation = P.inOperation
  inObject : P'.inObject = P.inObject
  defining : P'.defining = P.defining.map σ

/-- Moreover the innermost local scope, if there is one, has declared the same names up to
spelling. -/
structure Place.Respelled (σ : String → String) (P P' : Place) : Prop extends
    Place.Matches σ P P' where
  seen : P'.layers.head?.map (·.seen) = P.layers.head?.map (·.seen.map σ)

namespace Place.Matches

variable {σ : String → String} {P P' : Place} (h : P.Matches σ P')
include h

theorem child (i : Nat) : (P.child i).Matches σ (P'.child i) := ⟨h.1, h.2, h.3⟩

theorem after (names names' : List String) : (P.after names).Matches σ (P'.after names') :=
  ⟨h.1, h.2, h.3⟩

theorem enter (names names' : List String) : (P.enter names).Respelled σ (P'.enter names') :=
  ⟨⟨h.1, h.2, h.3⟩, rfl⟩

theorem operation (o o' : Operation) : (P.operation o).Respelled σ (P'.operation o') :=
  ⟨⟨rfl, h.2, h.3⟩, rfl⟩

theorem object : P.object.Matches σ P'.object := ⟨h.1, rfl, h.3⟩

end Place.Matches

namespace Place.Respelled

variable {σ : String → String} {P P' : Place} (h : P.Respelled σ P')
include h

theorem layers_cases : (P.layers = [] ∧ P'.layers = []) ∨ ∃ layer outer layer' outer',
    P.layers = layer :: outer ∧ P'.layers = layer' :: outer' ∧
      layer'.seen = layer.seen.map σ := by
  have hseen := h.seen
  cases hl : P.layers with
  | nil =>
    cases hl' : P'.layers with
    | nil => exact .inl ⟨rfl, rfl⟩
    | cons layer' outer' =>
      rw [hl, hl'] at hseen
      cases hseen
  | cons layer outer =>
    cases hl' : P'.layers with
    | nil =>
      rw [hl, hl'] at hseen
      cases hseen
    | cons layer' outer' =>
      rw [hl, hl'] at hseen
      exact .inr ⟨layer, outer, layer', outer', rfl, rfl, Option.some.inj hseen⟩

theorem isLocal_eq : P'.isLocal = P.isLocal := by
  obtain ⟨hl, hl'⟩ | ⟨_, _, _, _, hl, hl', -⟩ := h.layers_cases <;> simp [isLocal, hl, hl']

theorem declared_iff (hσ : Function.Injective σ) (name : String) :
    P'.Declared 0 (σ name) ↔ P.Declared 0 name := by
  obtain ⟨hl, hl'⟩ | ⟨_, _, _, _, hl, hl', hseen⟩ := h.layers_cases
  · simp [Declared, hl, hl']
  · simp [Declared, hl, hl', hseen, hσ.eq_iff]

theorem child (i : Nat) : (P.child i).Respelled σ (P'.child i) :=
  ⟨h.toMatches.child i, h.seen⟩

theorem after (names : List String) : (P.after names).Respelled σ (P'.after (names.map σ)) := by
  refine ⟨h.toMatches.after _ _, ?_⟩
  obtain ⟨hl, hl'⟩ | ⟨_, _, _, _, hl, hl', hseen⟩ := h.layers_cases
  · simp [Place.after, hl, hl']
  · simp [Place.after, hl, hl', hseen]

theorem initializer (name : String) :
    (P.initializer name).Respelled σ (P'.initializer (σ name)) := by
  have hafter := h.after [name]
  exact ⟨⟨hafter.inOperation, hafter.inObject, rfl⟩, hafter.seen⟩

end Place.Respelled

/-- The same name is introduced at both visits up to spelling, if any, and the same rule is broken,
provided that different names are spelled differently. -/
structure Visit.Respelled (σ : String → String) (v v' : Visit) : Prop where
  rule : Function.Injective σ → v'.fault?.map (·.1) = v.fault?.map (·.1)
  introduces : v'.introduces? = v.introduces?.map σ

open List (Forall₂ rel_append)

section Visits

variable {σ : String → String} {P P' : Place}

theorem Visit.Respelled.declaration (h : P.Respelled σ P') (name : Token) :
    Visit.Respelled σ ⟨.declaration name, P⟩ ⟨.declaration (name.respelled σ), P'⟩ := by
  refine ⟨fun hσ => ?_, congrArg some (Token.text_respelled σ name)⟩
  simp only [Visit.fault?, Token.text_respelled, h.declared_iff hσ]
  split <;> rfl

theorem Visit.Respelled.ofExpr (h : P.Respelled σ P') (e : Expr) :
    Visit.Respelled σ ⟨.node (.expr e), P⟩ ⟨.node (.expr (e.respelled σ)), P'⟩ := by
  refine ⟨fun hσ => ?_, rfl⟩
  cases e with
  | «variable» name hops =>
    have hdefining : P'.defining = some (σ name.text) ↔ P.defining = some name.text := by
      rw [h.defining, ← Option.map_some, (Option.map_injective hσ).eq_iff]
    simp only [Expr.respelled, Visit.fault?, Token.text_respelled, h.isLocal_eq, hdefining]
    split <;> rfl
  | parent name =>
    simp only [Expr.respelled, Visit.fault?, h.isLocal_eq]
    split <;> rfl
  | self keyword hops =>
    simp only [Expr.respelled, Visit.fault?, h.inObject]
  | _ => rfl

theorem Expr.visits_respelled (h : P.Respelled σ P') (e : Expr) :
    Forall₂ (Visit.Respelled σ) (e.visits P) ((e.respelled σ).visits P') := by
  rw [Expr.visits, Expr.visits, Expr.parts_respelled, List.map_map, List.forall₂_map_left_iff,
    List.forall₂_map_right_iff, List.forall₂_same]
  exact fun part _ => .ofExpr h part

theorem Expr.visitsOptional_respelled (h : P.Respelled σ P') (e? : Option Expr) :
    Forall₂ (Visit.Respelled σ) (Expr.visitsOptional P e?)
      (Expr.visitsOptional P' (e?.map (·.respelled σ))) := by
  cases e? with
  | none => exact .nil
  | some e => exact e.visits_respelled h

theorem Token.visitsOfParams_respelled (h : P.Respelled σ P') (ts : List Token) :
    Forall₂ (Visit.Respelled σ) (Token.visitsOfParams P ts)
      (Token.visitsOfParams P' (ts.map (·.respelled σ))) := by
  induction ts generalizing P P' with
  | nil => exact .nil
  | cons t ts ih =>
    refine .cons (.declaration h t) ?_
    rw [Token.text_respelled]
    exact ih (h.after [t.text])

theorem Definition.visitsOfMembers_respelled (h : P.Respelled σ P') (ds : List Definition) :
    Forall₂ (Visit.Respelled σ) (Definition.visitsOfMembers P ds)
      (Definition.visitsOfMembers P' (ds.map (·.respelled σ))) := by
  induction ds generalizing P P' with
  | nil => exact .nil
  | cons d ds ih =>
    refine .cons ⟨fun _ => rfl, rfl⟩ (rel_append (Expr.visitsOptional_respelled h d.initial) ?_)
    refine .cons (.declaration h d.name) ?_
    have hrest := ih (h.after [d.name.text])
    rwa [List.map_singleton, ← Token.text_respelled σ] at hrest

/-- A statement by itself breaks no rule, but for a `return` outside operations. -/
theorem Visit.Respelled.ofStmt (h : P.Respelled σ P') (s : Stmt) :
    Visit.Respelled σ ⟨.node (.stmt s), P⟩ ⟨.node (.stmt (s.respelled σ)), P'⟩ := by
  refine ⟨fun _ => ?_, rfl⟩
  cases s with
  | «return» keyword value => simp only [Stmt.respelled, Visit.fault?, h.inOperation]
  | conditional token condition branch arms otherwise => cases otherwise <;> rfl
  | _ => rfl

mutual

theorem Stmt.visits_respelled {P P' : Place} (h : P.Respelled σ P') (s : Stmt) :
    Forall₂ (Visit.Respelled σ) (s.visits P) ((s.respelled σ).visits P') := by
  have hself := Visit.Respelled.ofStmt h s
  match s with
  | .hole => exact .cons hself .nil
  | .expression _ value | .print _ value =>
    exact .cons hself (value.visits_respelled h)
  | .define d =>
    refine .cons hself (.cons (.declaration h d.name) ?_)
    rw [Definition.respelled, Token.text_respelled]
    exact Expr.visitsOptional_respelled (h.initializer d.name.text) d.initial
  | .block _ body => exact .cons hself (Stmt.visitsOfList_respelled (h.toMatches.enter _ _) body)
  | .operation o =>
    obtain ⟨token, name, params, body⟩ := o
    refine .cons hself (.cons (.declaration h name) ?_)
    exact Operation.visits_respelled (h.toMatches.after _ _) ⟨token, name, params, body⟩
  | .conditional _ condition branch arms none =>
    have hbranch := Stmt.visits_respelled (h.child 0) branch
    have harms := Arm.visitsOfList_respelled ((h.after branch.declares).child 1) arms
    rw [← Stmt.declares_respelled] at harms
    exact rel_append (rel_append (.cons hself (condition.visits_respelled h)) hbranch) harms
  | .conditional _ condition branch arms (some otherwise) =>
    have hbranch := Stmt.visits_respelled (h.child 0) branch
    have harms := Arm.visitsOfList_respelled ((h.after branch.declares).child 1) arms
    have hlast := Stmt.visits_respelled
      ((h.after (branch.declares ++ Arm.declaresList arms)).child 2) otherwise
    rw [← Stmt.declares_respelled] at harms
    rw [List.map_append, ← Stmt.declares_respelled, ← Arm.declaresList_respelled] at hlast
    exact rel_append (rel_append (rel_append (.cons hself (condition.visits_respelled h))
      hbranch) harms) hlast
  | .arm a => exact .cons hself (Arm.visits_respelled h a)
  | .loop _ condition body =>
    exact .cons hself (rel_append (condition.visits_respelled h)
      (Stmt.visits_respelled (h.child 0) body))
  | .return _ value => exact .cons hself (Expr.visitsOptional_respelled h value)
  | .object _ name methods =>
    refine .cons hself (.cons (.declaration h name) ?_)
    exact Operation.visitsOfList_respelled (h.toMatches.after _ _).object methods
  | .enum _ name _ => exact .cons hself (.cons (.declaration h name) .nil)
  | .form _ name members =>
    refine .cons hself (.cons (.declaration h name) ?_)
    rw [Token.text_respelled]
    exact Definition.visitsOfMembers_respelled (h.after [name.text]) members

theorem Stmt.visitsOfList_respelled {P P' : Place} (h : P.Respelled σ P') (ss : List Stmt) :
    Forall₂ (Visit.Respelled σ) (Stmt.visitsOfList P ss)
      (Stmt.visitsOfList P' (Stmt.respelledList σ ss)) := by
  match ss with
  | [] => exact .nil
  | s :: ss =>
    refine rel_append (Stmt.visits_respelled (h.child 0) s) ?_
    rw [Stmt.declares_respelled]
    exact Stmt.visitsOfList_respelled ((h.after s.declares).child 1) ss

theorem Operation.visits_respelled {P P' : Place} (h : P.Matches σ P') (o : Operation) :
    Forall₂ (Visit.Respelled σ) (o.visits P) ((o.respelled σ).visits P') := by
  match o with
  | ⟨token, name, params, body⟩ =>
    have hin := h.operation ⟨token, name, params, body⟩
      ⟨token, name.respelled σ, params.map (·.respelled σ), Stmt.respelledList σ body⟩
    refine rel_append (Token.visitsOfParams_respelled hin params) ?_
    rw [Token.texts_respelled]
    exact Stmt.visitsOfList_respelled (hin.after _) body

theorem Operation.visitsOfList_respelled {P P' : Place} (h : P.Matches σ P') (os : List Operation) :
    Forall₂ (Visit.Respelled σ) (Operation.visitsOfList P os)
      (Operation.visitsOfList P' (Operation.respelledList σ os)) := by
  match os with
  | [] => exact .nil
  | o :: os =>
    have hname : Visit.Respelled σ ⟨.method o, P.child 0⟩
        ⟨.method (o.respelled σ), P'.child 0⟩ := by
      refine ⟨fun _ => rfl, ?_⟩
      obtain ⟨_, name, _, _⟩ := o
      exact congrArg some (Token.text_respelled σ name)
    exact .cons hname (rel_append (Operation.visits_respelled (h.child 0) o)
      (Operation.visitsOfList_respelled (h.child 1) os))

theorem Arm.visits_respelled {P P' : Place} (h : P.Respelled σ P') (a : Arm) :
    Forall₂ (Visit.Respelled σ) (a.visits P) ((a.respelled σ).visits P') := by
  match a with
  | ⟨_, condition, branch⟩ =>
    exact rel_append (condition.visits_respelled h) (Stmt.visits_respelled h branch)

theorem Arm.visitsOfList_respelled {P P' : Place} (h : P.Respelled σ P') (as : List Arm) :
    Forall₂ (Visit.Respelled σ) (Arm.visitsOfList P as)
      (Arm.visitsOfList P' (Arm.respelledList σ as)) := by
  match as with
  | [] => exact .nil
  | a :: as =>
    refine .cons (.ofStmt (h.child 0) (.arm a)) (rel_append (Arm.visits_respelled (h.child 0) a) ?_)
    rw [Arm.declares_respelled]
    exact Arm.visitsOfList_respelled ((h.after a.declares).child 1) as

end

end Visits

section Programs

variable (σ : String → String) (p : Program)

theorem Program.visits_respelled :
    Forall₂ (Visit.Respelled σ) (p.visits 0) ((p.respelled σ).visits 0) :=
  Stmt.visitsOfList_respelled ⟨⟨rfl, rfl, rfl⟩, rfl⟩ p

theorem Program.introduced_respelled : (p.respelled σ).introduced = p.introduced.map σ := by
  rw [introduced, introduced, List.map_filterMap]
  have hvisits := p.visits_respelled σ
  generalize p.visits 0 = vs, (p.respelled σ).visits 0 = vs' at hvisits
  induction hvisits with
  | nil => rfl
  | cons hv _ ih => rw [List.filterMap_cons, List.filterMap_cons, hv.introduces, ih]

/-- A respelled program breaks the same rules in the same order. -/
theorem Program.rules_respelled (hσ : Function.Injective σ) :
    (p.respelled σ).resolve.diagnostics.map (·.rule) = p.resolve.diagnostics.map (·.rule) := by
  rw [Program.resolve_eq 0, Program.resolve_eq 0]
  have hvisits := p.visits_respelled σ
  generalize p.visits 0 = vs, (p.respelled σ).visits 0 = vs' at hvisits
  induction hvisits with
  | nil => rfl
  | @cons v v' vs vs' hv _ ih =>
    have hrule := hv.rule hσ
    simp only [Visit.diagnostics, List.filterMap_cons] at ih ⊢
    cases hfault : v.fault? <;> cases hfault' : v'.fault? <;>
      simp_all [Diagnostic.of]

end Programs

end Treescript
