import Treescript.Value

/-!
# Failures

The errors a running program can raise, by cause. A failure is located at a token; one that is
raised before a call is made keeps the arguments, which were evaluated already.
-/

namespace Treescript

inductive Cause where
  | undefinedVariable (name : String)
  | undefinedGlobal (name : String)
  | noEnclosingScope (name : String)
  | unknownUnary (word : String) (operand : Kind)
  | unknownBinary (word : String) (operands : Kind)
  | negation (operand : Kind)
  | arithmetic (left : Kind) (word : String) (right : Kind)
  | addition (left right : Kind)
  | divisionByZero
  | counting (word : String) (operand : Kind)
  | notCallable (callee : Kind)
  | arity (expected actual : Nat)
  | noProperties (target : Kind)
  | noFields (target : Kind)
  | undefinedProperty (of : TypeRef) (name : String)
  | nativeNumber (native : String) (argument : Kind)
  | nativeText (native : String) (argument : Kind)
  /-- An arm stands where a statement is wanted. -/
  | strayArm
  /-- An error with a wording of its own. -/
  | note (message : String)
  deriving DecidableEq, Repr

namespace Cause

/-- What a type calls the names its holders can be asked for. -/
def propertyWord : TypeRef → String
  | .object _ => "object property"
  | .enum _ => "enum element"
  | .form _ => "form member"

def message : Cause → String
  | undefinedVariable name => "Undefined variable '" ++ name ++ "'."
  | undefinedGlobal name => "Undefined global '" ++ name ++ "'."
  | noEnclosingScope name => "No enclosing scope to read '" ++ name ++ "' from."
  | unknownUnary word operand => "unknown operator: " ++ word ++ operand.name
  | unknownBinary word operands =>
    "unknown operator: " ++ operands.name ++ " " ++ word ++ " " ++ operands.name
  | negation operand => "Operand must be a number, got " ++ operand.name ++ "."
  | arithmetic left word right =>
    "Operands must be numbers, got " ++ left.name ++ " " ++ word ++ " " ++ right.name ++ "."
  | addition left right =>
    "Operands must be numbers or strings, got " ++ left.name ++ " + " ++ right.name ++ "."
  | divisionByZero => "Division by zero."
  | counting word operand =>
    "Operand of " ++ word ++ " must be a number, got " ++ operand.name ++ "."
  | notCallable callee => "Can only call operations and types, got " ++ callee.name ++ "."
  | arity expected actual =>
    "Expected " ++ toString expected ++ " arguments but got " ++ toString actual ++ "."
  | noProperties target =>
    "Only instances, samples and tastes have properties, got " ++ target.name ++ "."
  | noFields target =>
    "Only instances, samples and tastes have fields, got " ++ target.name ++ "."
  | undefinedProperty of name => "Undefined " ++ propertyWord of ++ " '" ++ name ++ "'."
  | nativeNumber native argument => native ++ " expects a number, got " ++ argument.name
  | nativeText native argument => native ++ " expects a string, got " ++ argument.name
  | strayArm => "cannot execute *ast.OrBranch"
  | note message => message

end Cause

structure Failure where
  token : Token
  cause : Cause
  /-- The arguments of a call that was refused. -/
  args : Option (List Value) := none

namespace Failure

/-- Locates a failure that has no place of its own. -/
def locatedAt (token : Token) (f : Failure) : Failure :=
  if f.token.isBlank then { f with token } else f

end Failure

/-- What a part of a run can hand on: a value, a value on its way out of an operation, or a
failure. Signals other than values are told apart by number. -/
inductive Signal where
  | value (v : Value)
  | returned (id : Nat) (v : Value)
  | failed (id : Nat) (f : Failure)

namespace Signal

def kind : Signal → Kind
  | value v => v.kind
  | returned _ _ => .returned
  | failed _ _ => .error

def isTruthy : Signal → Bool
  | value v => v.isTruthy
  | _ => true

def isError : Signal → Bool
  | failed _ _ => true
  | _ => false

def equal : Signal → Signal → Bool
  | value v, value w => v.equal w
  | returned a _, returned b _ => a == b
  | failed a _, failed b _ => a == b
  | _, _ => false

end Signal

end Treescript
