import Treescript.Tree.Basic

/-!
# Printed trees

A tree is printed as nested groups in parentheses, a head and then the parts. The outline of a tree
is the same structure before it becomes text. Optional children that are missing leave no trace,
other missing children are printed as `none`.
-/

namespace Treescript

/-- Text on its own, or a head with parts in parentheses. -/
inductive Outline where
  | atom (text : String)
  | group (head : String) (parts : List Outline)

mutual

def Outline.render : Outline → String
  | .atom text => text
  | .group head parts => "(" ++ head ++ Outline.renderParts parts ++ ")"

/-- Every part with a space before it. -/
def Outline.renderParts : List Outline → String
  | [] => ""
  | part :: parts => " " ++ part.render ++ Outline.renderParts parts

end

mutual

def Expr.outline : Expr → Outline
  | .hole => .atom "none"
  | .literal _ value => .atom value.printed
  | .variable name _ => .atom name.text
  | .assign name value _ => .group ("= " ++ name.text) [value.outline]
  | .unary operator right => .group operator.text [right.outline]
  | .binary left operator right => .group operator.text [left.outline, right.outline]
  | .logical left operator right => .group operator.text [left.outline, right.outline]
  | .count operator target _ _ => .group operator.text [target.outline]
  | .call callee _ args => .group "call" (callee.outline :: Expr.outlines args)
  | .group _ inner => .group "group" [inner.outline]
  | .self keyword _ => .atom keyword.text
  | .get object name => .group ("." ++ name.text) [object.outline]
  | .set object name value => .group ("." ++ name.text ++ " =") [object.outline, value.outline]
  | .parent name => .atom ("^" ++ name.text)
  | .global name => .atom ("$" ++ name.text)

def Expr.outlines : List Expr → List Outline
  | [] => []
  | e :: es => e.outline :: Expr.outlines es

end

def Definition.outline (d : Definition) : Outline :=
  .group ("def " ++ d.name.text) (d.initial.toList.map Expr.outline)

/-- The head of an operation: its name and parameters. -/
def Operation.heading (name : Token) (params : List Token) : String :=
  "op " ++ name.text ++ "(" ++ ", ".intercalate (params.map (·.text)) ++ ")"

mutual

def Stmt.outline : Stmt → Outline
  | .hole => .atom "none"
  | .expression _ value => .group ";" [value.outline]
  | .print _ value => .group "log" [value.outline]
  | .define d => d.outline
  | .block _ body => .group "body" (Stmt.outlines body)
  | .operation o => o.outline
  | .conditional _ condition branch arms otherwise =>
    .group "when" (condition.outline :: branch.outline :: (Arm.outlines arms ++
      match otherwise with
      | none => []
      | some s => [s.outline]))
  | .arm a => a.outline
  | .loop _ condition body => .group "while" [condition.outline, body.outline]
  | .return _ value => .group "return" (value.toList.map Expr.outline)
  | .object _ name methods => .group ("obj " ++ name.text) (Operation.outlines methods)
  | .enum _ name elements =>
    .group ("enum " ++ name.text ++ " " ++ " ".intercalate (elements.map (·.text))) []
  | .form _ name members => .group ("form " ++ name.text) (members.map Definition.outline)

def Stmt.outlines : List Stmt → List Outline
  | [] => []
  | s :: ss => s.outline :: Stmt.outlines ss

def Operation.outline : Operation → Outline
  | ⟨_, name, params, body⟩ => .group (Operation.heading name params) (Stmt.outlines body)

def Operation.outlines : List Operation → List Outline
  | [] => []
  | o :: os => o.outline :: Operation.outlines os

def Arm.outline : Arm → Outline
  | ⟨_, condition, branch⟩ => .group "or" [condition.outline, branch.outline]

def Arm.outlines : List Arm → List Outline
  | [] => []
  | a :: rest => a.outline :: Arm.outlines rest

end

/-- The printed form of an expression. -/
def Expr.print (e : Expr) : String := e.outline.render

/-- The printed form of a program, one line for each statement. -/
def Program.print (p : Program) : String :=
  String.join (p.map fun s => s.outline.render ++ "\n")

end Treescript
