import Treescript.NameMap

/-!
# Symbol scopes

The scopes that are open at a place of a program text, innermost first, with what each of them
declares. The global scope is not among them: at top level the stack is empty and declarations
leave no trace.
-/

namespace Treescript

inductive SymbolKind where
  | variable | operation | param | object | enum | form | self
  deriving DecidableEq, Repr

namespace SymbolKind

def all : List SymbolKind := [.variable, operation, param, object, enum, form, self]

def spelling : SymbolKind → String
  | .variable => "def"
  | operation => "op"
  | param => "param"
  | object => "obj"
  | enum => "enum"
  | form => "form"
  | self => "self"

end SymbolKind

/-- A declared name. It is not `defined` until its initial value has been passed. -/
structure Symbol where
  name : String
  kind : SymbolKind
  defined : Bool
  line : Int
  deriving DecidableEq, Repr

/-- The names that one scope declares. -/
abbrev SymbolScope := NameMap Symbol

/-- The open scopes, innermost first. -/
abbrev Symbols := List SymbolScope

namespace Symbols

/-- Whether no scope is open. -/
def isGlobal (ss : Symbols) : Bool := ss.isEmpty

def enter (ss : Symbols) : Symbols := .empty :: ss

/-- Leaves the innermost scope. -/
def exit (ss : Symbols) : Symbols := ss.tail

/-- Looks only at the innermost scope. -/
def current? : Symbols → String → Option Symbol
  | [], _ => none
  | scope :: _, name => scope.get? name

/-- Whether the innermost scope declares a name. -/
def declares (ss : Symbols) (name : String) : Bool := (ss.current? name).isSome

/-- Adds a name to the innermost scope as not yet defined, in place of any symbol of that name. -/
def declare : Symbols → Symbol → Symbols
  | [], _ => []
  | scope :: outer, symbol => scope.insert symbol.name { symbol with defined := false } :: outer

/-- Marks a name of the innermost scope as defined; a name it does not have is added. -/
def define : Symbols → String → Symbols
  | [], _ => []
  | scope :: outer, name =>
    let symbol := (scope.get? name).getD ⟨name, .variable, true, 0⟩
    scope.insert name { symbol with defined := true } :: outer

/-- The nearest symbol of a name and the number of scopes crossed to reach it. -/
def resolve? : Symbols → String → Option (Symbol × Nat)
  | [], _ => none
  | scope :: outer, name =>
    match scope.get? name with
    | some symbol => some (symbol, 0)
    | none => (resolve? outer name).map fun found => (found.1, found.2 + 1)

/-- The number of scopes between the innermost one and the one that declares a name. -/
def hops? (ss : Symbols) (name : String) : Option Nat := (ss.resolve? name).map Prod.snd

end Symbols

end Treescript
