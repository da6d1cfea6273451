import Treescript.Document.Basic
import Treescript.Text.Quoted

/-!
# Faults of a program document

Why a document is not a program: the path from the root to the node at fault, the type the node
gives itself, and what is wrong with it.
-/

namespace Treescript

/-- One step down a document. -/
inductive Step where
  | key (name : String)
  | index (n : Nat)
  deriving DecidableEq, Repr

/-- The steps from the root of a document, outermost first. -/
abbrev Path := List Step

namespace Path

/-- The path as it is written after a first key: a dot before every key, indices in brackets. -/
def tail : Path → String
  | [] => ""
  | .key name :: rest => "." ++ name ++ tail rest
  | .index n :: rest => "[" ++ toString n ++ "]" ++ tail rest

def render : Path → String
  | .key name :: rest => name ++ tail rest
  | path => tail path

end Path

/-- What is wrong with a node. -/
inductive Fault where
  | notMapping (typeName : String)
  | noType
  | missing (key : String)
  | emptyName (key : String)
  | notName (key typeName : String)
  | notNames (key : String)
  | notNameAt (key : String) (index : Nat)
  | unknownOperator (word : String)
  | unsupportedLiteral (typeName : String)
  | notExpressions (key : String)
  | notStatements (key : String)
  | notList (key : String)
  | notExpression
  | notStatement
  | notOperation
  | notDefinition
  deriving DecidableEq, Repr

def Fault.message : Fault → String
  | notMapping typeName => "expected a mapping, got " ++ typeName
  | noType => "missing node type"
  | missing key => "missing " ++ key
  | emptyName key => "empty " ++ key
  | notName key typeName => key ++ " must be a name, got " ++ typeName
  | notNames key => key ++ " must be a list of names"
  | notNameAt key index => key ++ "[" ++ toString index ++ "] must be a name"
  | unknownOperator word => "unknown operator " ++ Text.quote word
  | unsupportedLiteral typeName => "unsupported literal " ++ typeName
  | notExpressions key => key ++ " must be a list of expressions"
  | notStatements key => key ++ " must be a list of statements"
  | notList key => key ++ " must be a list"
  | notExpression => "not an expression"
  | notStatement => "not a statement"
  | notOperation => "object bodies hold operations only"
  | notDefinition => "form bodies hold definitions only"

/-- A fault and where it is. -/
structure Invalid where
  path : Path
  /-- The type of the node at fault, once it is known. -/
  nodeType : Option String
  fault : Fault
  deriving DecidableEq, Repr

def Invalid.message (i : Invalid) : String :=
  "fixtures: " ++ i.path.render ++
    (match i.nodeType with
      | none => ""
      | some t => " (" ++ t ++ ")") ++
    ": " ++ i.fault.message ++ ": invalid node"

end Treescript
