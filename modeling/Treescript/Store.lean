import Treescript.Failure

/-!
# The store

Everything that values refer to: scopes, operations with the scopes they were declared in, types,
and the fields of holders. Entries are only ever added; of what is there, only the bindings of
scopes and the fields of holders change.
-/

namespace Treescript

/-- An operation together with the scope it was declared in. -/
structure Closure where
  declaration : Operation
  scope : ScopeId
  /-- A pilot runs when its object type is called, and always hands back the instance. -/
  isPilot : Bool

def Closure.arity (c : Closure) : Nat := c.declaration.params.length

structure ObjectType where
  name : String
  /-- The methods by name, as operations that are not bound to an instance. -/
  methods : NameMap Nat

structure EnumType where
  name : String
  elements : List String

namespace EnumType

/-- The place of an element; the last one if it is listed several times. -/
def ordinal? (t : EnumType) (element : String) : Option Nat :=
  (t.elements.reverse.findIdx? (· == element)).map (t.elements.length - 1 - ·)

/-- The element with a given ordinal. -/
def elementName? (t : EnumType) (ordinal : Int) : Option String :=
  if ordinal < 0 then none else t.elements[ordinal.toNat]?

end EnumType

structure FormType where
  name : String
  /-- The default of each member, evaluated once at the declaration. -/
  members : NameMap Value

structure Store where
  scopes : Scopes Value
  closures : Array Closure
  objects : Array ObjectType
  enums : Array EnumType
  forms : Array FormType
  holders : Array (NameMap Value)

/-- The name of the method that runs when an object type is called. -/
def pilotName : String := "pilot"

namespace Store

def empty : Store := ⟨.empty, #[], #[], #[], #[], #[]⟩

def addClosure (s : Store) (c : Closure) : Store × Nat :=
  ({ s with closures := s.closures.push c }, s.closures.size)

/-- Adds methods as operations declared in a scope; of two with one name the later counts. -/
def addMethods (s : Store) (scope : ScopeId) (methods : List Operation) :
    Store × NameMap Nat :=
  methods.foldl
    (fun acc m =>
      let (s, id) := acc.1.addClosure ⟨m, scope, m.name.text == pilotName⟩
      (s, acc.2.insert m.name.text id))
    (s, .empty)

def addObject (s : Store) (t : ObjectType) : Store × TypeRef :=
  ({ s with objects := s.objects.push t }, .object s.objects.size)

def addEnum (s : Store) (t : EnumType) : Store × TypeRef :=
  ({ s with enums := s.enums.push t }, .enum s.enums.size)

def addForm (s : Store) (t : FormType) : Store × TypeRef :=
  ({ s with forms := s.forms.push t }, .form s.forms.size)

/-- Adds a holder without fields. -/
def addHolder (s : Store) : Store × Nat :=
  ({ s with holders := s.holders.push .empty }, s.holders.size)

def enterScope (s : Store) (outer : ScopeId) : Store × ScopeId :=
  let (scopes, id) := s.scopes.enter outer
  ({ s with scopes }, id)

def define (s : Store) (scope : ScopeId) (name : String) (value : Value) : Store :=
  { s with scopes := s.scopes.define scope name value }

def fields? (s : Store) (holder : Nat) : Option (NameMap Value) := s.holders[holder]?

/-- Writes a field of a holder. -/
def setField (s : Store) (holder : Nat) (name : String) (value : Value) : Store :=
  { s with holders := s.holders.modify holder (·.insert name value) }

/-- A new operation in which `self` is bound to a value. -/
def bindSelf (s : Store) (c : Closure) (value : Value) : Store × Nat :=
  let (s, scope) := s.enterScope c.scope
  (s.define scope selfName value).addClosure { c with scope }

/-- The name a type was declared with. -/
def typeName (s : Store) : TypeRef → String
  | .object id => (s.objects[id]?.map (·.name)).getD ""
  | .enum id => (s.enums[id]?.map (·.name)).getD ""
  | .form id => (s.forms[id]?.map (·.name)).getD ""

/-- The operation that a type is called through, if it has one. -/
def pilot? (s : Store) : TypeRef → Option Nat
  | .object id => s.objects[id]?.bind (·.methods.get? pilotName)
  | _ => none

def closureArity (s : Store) (id : Nat) : Nat :=
  (s.closures[id]?.map (·.arity)).getD 0

end Store

def Native.name : Native → String
  | clock => "clock"
  | abs => "abs"
  | ceil => "ceil"
  | floor => "floor"
  | round => "round"
  | sqrt => "sqrt"
  | upper => "upper"
  | lower => "lower"
  | trim => "trim"
  | len => "len"
  | type => "type"
  | str => "str"

def Native.arity : Native → Nat
  | clock => 0
  | _ => 1

namespace Store

/-- How a value is displayed. -/
def display (s : Store) : Value → String
  | .none => "none"
  | .bool true => "true"
  | .bool false => "false"
  | .int n => toString n.toInt
  | .float x => Decimal.text .positional x
  | .text t => t
  | .operation id =>
    "<op " ++ (s.closures[id]?.map (·.declaration.name.text)).getD "" ++ ">"
  | .native n => "<native " ++ n.name ++ ">"
  | .type t => s.typeName t
  | .holder t@(.object _) _ => "<" ++ s.typeName t ++ " instance>"
  | .holder t@(.enum _) _ => "<" ++ s.typeName t ++ " sample>"
  | .holder t@(.form _) _ => "<" ++ s.typeName t ++ " taste>"

def displaySignal (s : Store) : Signal → String
  | .value v => s.display v
  | .returned _ v => s.display v
  | .failed _ f => "ERROR: " ++ f.cause.message

/-- The number of arguments a value takes, none for a value that cannot be called. -/
def arity? (s : Store) : Value → Option Nat
  | .operation id => some (s.closureArity id)
  | .native n => some n.arity
  | .type t => some ((s.pilot? t).elim 0 s.closureArity)
  | _ => none

end Store

end Treescript
