import Treescript.Token

/-!
# Syntax trees

A program is a list of statements. Names are resolved in place: a node that reads or writes a
variable has a field `hops`, the number of scopes between the node and the scope that declares the
name, which resolution fills in. A node with no `hops` goes to the global scope.

A `hole` stands for a missing child. Documents never produce one; trees built by hand may have them.
-/

namespace Treescript

inductive Expr where
  | hole
  | literal (token : Token) (value : Literal)
  | variable (name : Token) (hops : Option Nat)
  | assign (name : Token) (value : Expr) (hops : Option Nat)
  | unary (operator : Token) (right : Expr)
  | binary (left : Expr) (operator : Token) (right : Expr)
  /-- A short-circuiting `and` or `or`. -/
  | logical (left : Expr) (operator : Token) (right : Expr)
  /-- Counts a variable up or down: reads `target`, writes `name`, and has the new value. -/
  | count (operator : Token) (target : Expr) (name : Token) (hops : Option Nat)
  | call (callee : Expr) (paren : Token) (args : List Expr)
  | group (token : Token) (inner : Expr)
  | self (keyword : Token) (hops : Option Nat)
  | get (object : Expr) (name : Token)
  | set (object : Expr) (name : Token) (value : Expr)
  /-- Reads a name starting one scope above the current one. -/
  | parent (name : Token)
  /-- Reads a name straight from the global scope. -/
  | global (name : Token)

/-- A variable or a form member with its initial value. -/
structure Definition where
  token : Token
  name : Token
  initial : Option Expr

mutual

inductive Stmt where
  | hole
  | expression (token : Token) (value : Expr)
  | print (token : Token) (value : Expr)
  | define (definition : Definition)
  | block (token : Token) (body : List Stmt)
  | operation (declaration : Operation)
  | conditional (token : Token) (condition : Expr) (branch : Stmt) (arms : List Arm)
      (otherwise : Option Stmt)
  /-- An arm outside a conditional, which cannot be executed. -/
  | arm (a : Arm)
  | loop (token : Token) (condition : Expr) (body : Stmt)
  | return (keyword : Token) (value : Option Expr)
  | object (token : Token) (name : Token) (methods : List Operation)
  | enum (token : Token) (name : Token) (elements : List Token)
  | form (token : Token) (name : Token) (members : List Definition)

/-- A named operation: its parameters and the statements it runs. -/
structure Operation where
  token : Token
  name : Token
  params : List Token
  body : List Stmt

/-- One "or" arm of a conditional. -/
structure Arm where
  token : Token
  condition : Expr
  branch : Stmt

end

abbrev Program := List Stmt

/-- The name that methods know their instance by. -/
def selfName : String := "self"

/-- The token that locates an expression. -/
def Expr.token : Expr → Token
  | .hole => .blank
  | .literal token _ => token
  | .variable name _ => name
  | .assign name _ _ => name
  | .unary operator _ => operator
  | .binary _ operator _ => operator
  | .logical _ operator _ => operator
  | .count operator _ _ _ => operator
  | .call _ paren _ => paren
  | .group token _ => token
  | .self keyword _ => keyword
  | .get _ name => name
  | .set _ name _ => name
  | .parent name => name
  | .global name => name

/-- The token a statement starts with. -/
def Stmt.leading : Stmt → Token
  | .hole => .blank
  | .expression token _ => token
  | .print token _ => token
  | .define d => d.token
  | .block token _ => token
  | .operation o => o.token
  | .conditional token _ _ _ _ => token
  | .arm a => a.token
  | .loop token _ _ => token
  | .return keyword _ => keyword
  | .object token _ _ => token
  | .enum token _ _ => token
  | .form token _ _ => token

/-- The token that locates a statement: the name of a declaration, else the token it starts with. -/
def Stmt.token : Stmt → Token
  | .define d => d.name
  | .operation o => o.name
  | .object _ name _ => name
  | .enum _ name _ => name
  | .form _ name _ => name
  | s => s.leading

end Treescript
