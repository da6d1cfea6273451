import Treescript.Literal
import Treescript.NameMap
import Treescript.Scope
import Treescript.Tree.Basic

/-!
# Values

The first-class values of the language. Numbers, texts, truth values and `none` are what they are;
operations, types and the holders made from types are references into a `Store`, so that two of
them are equal exactly when they are the same one.
-/

namespace Treescript

/-- The operations that come with the language. -/
inductive Native where
  | clock
  | abs | ceil | floor | round | sqrt
  | upper | lower | trim | len
  | type | str
  deriving DecidableEq, Repr

/-- A declared type by its number among the types of its sort. -/
inductive TypeRef where
  | object (id : Nat)
  | enum (id : Nat)
  | form (id : Nat)
  deriving DecidableEq, Repr

inductive Value where
  | none
  | bool (b : Bool)
  | int (n : Int64)
  | float (x : Float)
  | text (s : String)
  | operation (id : Nat)
  | native (n : Native)
  | type (t : TypeRef)
  /-- Something made by calling a type: an instance, a sample or a taste. -/
  | holder (of : TypeRef) (id : Nat)

/-- The kinds that programs can tell apart, and the two that only control the flow of a run. -/
inductive Kind where
  | integer | float | text | boolean | none
  | operation | native
  | objectType | objectInstance | enumType | sample | formType | taste
  | returned | error
  deriving DecidableEq, Repr

def Kind.name : Kind → String
  | integer => "INTEGER"
  | float => "FLOAT"
  | text => "STRING"
  | boolean => "BOOLEAN"
  | none => "NONE"
  | operation => "OPERATION"
  | native => "BUILTIN"
  | objectType => "OBJ"
  | objectInstance => "INSTANCE"
  | enumType => "ENUM"
  | sample => "SAMPLE"
  | formType => "FORM"
  | taste => "TASTE"
  | returned => "RETURN_VALUE"
  | error => "ERROR"

/-- The kind of a type. -/
def TypeRef.kind : TypeRef → Kind
  | object _ => .objectType
  | enum _ => .enumType
  | form _ => .formType

/-- The kind of what calling a type makes. -/
def TypeRef.holderKind : TypeRef → Kind
  | object _ => .objectInstance
  | enum _ => .sample
  | form _ => .taste

namespace Value

def kind : Value → Kind
  | none => .none
  | bool _ => .boolean
  | int _ => .integer
  | float _ => .float
  | text _ => .text
  | operation _ => .operation
  | native _ => .native
  | type t => t.kind
  | holder t _ => t.holderKind

/-- Only `none` and `false` are not truthy. -/
def isTruthy : Value → Bool
  | none => false
  | bool b => b
  | _ => true

/-- Equality as programs see it: by value for constants, by identity for the rest, and never
between different kinds. A float that is not a number differs from itself. -/
def equal : Value → Value → Bool
  | none, none => true
  | bool a, bool b => a == b
  | int a, int b => a == b
  | float a, float b => a == b
  | text a, text b => a == b
  | operation a, operation b => a == b
  | native a, native b => a == b
  | type a, type b => a == b
  | holder s a, holder t b => s == t && a == b
  | _, _ => false

/-- The value of a literal. A kind the language lacks becomes its text. -/
def ofLiteral : Literal → Value
  | .null => none
  | .bool b => bool b
  | .int n => int n
  | .word n => int n
  | .float x => float x
  | .text s => text s
  | .natural n => text (Literal.plain (.natural n))

/-- A number as a float. -/
def number? : Value → Option Float
  | int n => some (Float.ofInt n.toInt)
  | float x => some x
  | _ => Option.none

end Value

end Treescript
