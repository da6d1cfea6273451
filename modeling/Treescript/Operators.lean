import Treescript.Store

/-!
# Operators

What the operators compute from evaluated operands. Integers are signed 64-bit words and wrap
around; division of integers truncates toward zero. An integer beside a float counts as a float.
-/

namespace Treescript.Operator

/-- Applies an operator in front of an operand. Tokens other than `!` and `-` are no such
operators. -/
def prefixed (token : Token) (right : Value) : Except Cause Value :=
  match token.kind with
  | .operator .not => .ok (.bool (!right.isTruthy))
  | .operator .minus =>
    match right with
    | .int n => .ok (.int (-n))
    | .float x => .ok (.float (-x))
    | v => .error (.negation v.kind)
  | _ => .error (.unknownUnary token.text right.kind)

/-- Integers stay integers, a text on either side joins what both sides display, and other numbers
are added as floats. -/
def add (store : Store) (left right : Value) : Except Cause Value :=
  match left, right with
  | .int l, .int r => .ok (.int (l + r))
  | .text l, r => .ok (.text (l ++ store.display r))
  | l, .text r => .ok (.text (store.display l ++ r))
  | l, r =>
    match l.number?, r.number? with
    | some x, some y => .ok (.float (x + y))
    | _, _ => .error (.addition l.kind r.kind)

def onIntegers (token : Token) (l r : Int64) : Except Cause Value :=
  match token.kind with
  | .operator .times => .ok (.int (l * r))
  | .operator .divide => if r = 0 then .error .divisionByZero else .ok (.int (l / r))
  | .operator .minus => .ok (.int (l - r))
  | .operator .greater => .ok (.bool (r < l))
  | .operator .greaterEqual => .ok (.bool (r ≤ l))
  | .operator .less => .ok (.bool (l < r))
  | .operator .lessEqual => .ok (.bool (l ≤ r))
  | _ => .error (.unknownBinary token.text .integer)

def onFloats (token : Token) (l r : Float) : Except Cause Value :=
  match token.kind with
  | .operator .times => .ok (.float (l * r))
  | .operator .divide => .ok (.float (l / r))
  | .operator .minus => .ok (.float (l - r))
  | .operator .greater => .ok (.bool (r < l))
  | .operator .greaterEqual => .ok (.bool (r ≤ l))
  | .operator .less => .ok (.bool (l < r))
  | .operator .lessEqual => .ok (.bool (l ≤ r))
  | _ => .error (.unknownBinary token.text .float)

/-- Applies an operator between two operands. -/
def between (store : Store) (token : Token) (left right : Value) : Except Cause Value :=
  match token.kind with
  | .operator .equal => .ok (.bool (left.equal right))
  | .operator .notEqual => .ok (.bool (!left.equal right))
  | .operator .plus => add store left right
  | _ =>
    match left, right with
    | .int l, .int r => onIntegers token l r
    | l, r =>
      match l.number?, r.number? with
      | some x, some y => onFloats token x y
      | _, _ => .error (.arithmetic l.kind token.text r.kind)

/-- Counts a number one up, or one down for `--`. -/
def counted (token : Token) : Value → Except Cause Value
  | .int n => .ok (.int (if token.kind = .operator .decrement then n + -1 else n + 1))
  | .float x => .ok (.float (if token.kind = .operator .decrement then x + -1 else x + 1))
  | v => .error (.counting token.text v.kind)

end Treescript.Operator
