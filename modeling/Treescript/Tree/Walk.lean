import Treescript.Tree.Basic

/-!
# Walking a tree

The nodes of a tree in the order of a depth-first walk, every node before its children and the
children in the order in which they are written. Holes are passed over.
-/

namespace Treescript

inductive Node where
  | expr (e : Expr)
  | stmt (s : Stmt)

namespace Node

/-- The token that locates a node. -/
def token : Node → Token
  | expr e => e.token
  | stmt s => s.token

/-- The token a node starts with. -/
def leading : Node → Token
  | expr e => e.token
  | stmt s => s.leading

end Node

mutual

def Expr.nodes : Expr → List Node
  | .hole => []
  | e@(.assign _ value _) => .expr e :: value.nodes
  | e@(.unary _ right) => .expr e :: right.nodes
  | e@(.binary left _ right) => .expr e :: (left.nodes ++ right.nodes)
  | e@(.logical left _ right) => .expr e :: (left.nodes ++ right.nodes)
  | e@(.count _ target _ _) => .expr e :: target.nodes
  | e@(.call callee _ args) => .expr e :: (callee.nodes ++ Expr.nodesOfList args)
  | e@(.group _ inner) => .expr e :: inner.nodes
  | e@(.get object _) => .expr e :: object.nodes
  | e@(.set object _ value) => .expr e :: (object.nodes ++ value.nodes)
  | e@(.literal ..) => [.expr e]
  | e@(.variable ..) => [.expr e]
  | e@(.self ..) => [.expr e]
  | e@(.parent ..) => [.expr e]
  | e@(.global ..) => [.expr e]

def Expr.nodesOfList : List Expr → List Node
  | [] => []
  | e :: es => e.nodes ++ Expr.nodesOfList es

end

def Definition.nodes (d : Definition) : List Node :=
  .stmt (.define d) :: d.initial.toList.flatMap Expr.nodes

mutual

def Stmt.nodes : Stmt → List Node
  | .hole => []
  | s@(.expression _ value) => .stmt s :: value.nodes
  | s@(.print _ value) => .stmt s :: value.nodes
  | .define d => d.nodes
  | s@(.block _ body) => .stmt s :: Stmt.nodesOfList body
  | .operation o => o.nodes
  | s@(.conditional _ condition branch arms otherwise) =>
    .stmt s :: (condition.nodes ++ branch.nodes ++ Arm.nodesOfList arms ++
      match otherwise with
      | none => []
      | some o => o.nodes)
  | .arm a => a.nodes
  | s@(.loop _ condition body) => .stmt s :: (condition.nodes ++ body.nodes)
  | s@(.return _ value) => .stmt s :: value.toList.flatMap Expr.nodes
  | s@(.object _ _ methods) => .stmt s :: Operation.nodesOfList methods
  | s@(.enum ..) => [.stmt s]
  | s@(.form _ _ members) => .stmt s :: members.flatMap Definition.nodes

def Stmt.nodesOfList : List Stmt → List Node
  | [] => []
  | s :: ss => s.nodes ++ Stmt.nodesOfList ss

def Operation.nodes : Operation → List Node
  | o@⟨_, _, _, body⟩ => .stmt (.operation o) :: Stmt.nodesOfList body

def Operation.nodesOfList : List Operation → List Node
  | [] => []
  | o :: os => o.nodes ++ Operation.nodesOfList os

def Arm.nodes : Arm → List Node
  | a@⟨_, condition, branch⟩ => .stmt (.arm a) :: (condition.nodes ++ branch.nodes)

def Arm.nodesOfList : List Arm → List Node
  | [] => []
  | a :: rest => a.nodes ++ Arm.nodesOfList rest

end

/-- All nodes of a program. -/
def Program.nodes (p : Program) : List Node := Stmt.nodesOfList p

/-- The expressions of a program that name a variable and may be resolved. -/
def Program.references (p : Program) : List (Expr × Option Nat) :=
  p.nodes.filterMap fun
    | .expr e@(.variable _ hops) => some (e, hops)
    | .expr e@(.assign _ _ hops) => some (e, hops)
    | .expr e@(.count _ _ _ hops) => some (e, hops)
    | .expr e@(.self _ hops) => some (e, hops)
    | _ => none

end Treescript
