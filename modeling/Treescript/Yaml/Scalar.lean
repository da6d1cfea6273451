import Treescript.Decimal.Reading
import Treescript.Document.Basic
import Treescript.Yaml.Basic

/-!
# The meaning of scalars

A quoted scalar is a text. A plain one is null, a truth value, a number or a timestamp if it looks
like one, and a text otherwise. A tag asks for one of these kinds.
-/

namespace Treescript

namespace YamlScalar

/-- The value of digits in a base, none when there is a character that is no digit of it. -/
def digitsIn? (base : Nat) (cs : List Char) : Option Nat :=
  if cs.isEmpty then none
  else
    cs.foldlM
      (fun n c =>
        let digit? :=
          if c.isDigit then some (c.toNat - '0'.toNat)
          else if 'a' ≤ c ∧ c ≤ 'f' then some (c.toNat - 'a'.toNat + 10)
          else if 'A' ≤ c ∧ c ≤ 'F' then some (c.toNat - 'A'.toNat + 10)
          else none
        (digit?.filter (· < base)).map (base * n + ·))
      0

/-- An unsigned whole number: hexadecimal, octal or binary after `0x`, `0o` or `0b`, octal after a
leading zero, and decimal otherwise. -/
def magnitude? : List Char → Option Nat
  | '0' :: 'x' :: rest => digitsIn? 16 rest
  | '0' :: 'X' :: rest => digitsIn? 16 rest
  | '0' :: 'o' :: rest => digitsIn? 8 rest
  | '0' :: 'O' :: rest => digitsIn? 8 rest
  | '0' :: 'b' :: rest => digitsIn? 2 rest
  | '0' :: 'B' :: rest => digitsIn? 2 rest
  | ['0'] => some 0
  | '0' :: rest => digitsIn? 8 rest
  | cs => digitsIn? 10 cs

/-- A number within the signed range. -/
def signed? (n : Int) : Option Document :=
  if -9223372036854775808 ≤ n ∧ n ≤ 9223372036854775807 then some (.int (Int64.ofInt n)) else none

/-- A number within the signed range, or else within the unsigned one. -/
def unsigned? (n : Nat) : Option Document :=
  (signed? n).or (if n ≤ 18446744073709551615 then some (.natural (UInt64.ofNat n)) else none)

/-- A whole number, if the text is one and it fits 64 bits. -/
def integer? (cs : List Char) : Option Document :=
  match cs with
  | '-' :: rest => (magnitude? rest).bind fun n => signed? (-n)
  | '+' :: rest => (magnitude? rest).bind fun n => signed? n
  | _ => (magnitude? cs).bind unsigned?

/-- A whole number in binary or octal whose sign stands behind the `0b` or `0o`. -/
def innerSigned? (cs : List Char) : Option Document :=
  let after (base : Nat) : List Char → Option Document
    | '-' :: rest => (digitsIn? base rest).bind fun n => signed? (-n)
    | '+' :: rest => (digitsIn? base rest).bind fun n => signed? n
    | _ => none
  match cs with
  | '0' :: 'b' :: rest => after 2 rest
  | '0' :: 'o' :: rest => after 8 rest
  | _ => none

/-- One or two digits that spell a number. -/
def shortNumber? (cs : List Char) : Option (Nat × List Char) :=
  match cs with
  | a :: b :: rest =>
    if a.isDigit && b.isDigit then some (Decimal.ofDigits [a, b], rest)
    else if a.isDigit then some (Decimal.ofDigits [a], b :: rest)
    else none
  | [a] => if a.isDigit then some (Decimal.ofDigits [a], []) else none
  | [] => none

def daysIn (year month : Nat) : Nat :=
  if month = 2 then
    if year % 4 = 0 ∧ (year % 100 ≠ 0 ∨ year % 400 = 0) then 29 else 28
  else if month = 4 ∨ month = 6 ∨ month = 9 ∨ month = 11 then 30
  else 31

/-- Strips one expected character. -/
def expect? (c : Char) : List Char → Option (List Char)
  | d :: rest => if c = d then some rest else none
  | [] => none

/-- A date at the start of a text. -/
def date? (cs : List Char) : Option (List Char) := do
  let year := cs.takeWhile Char.isDigit
  if year.length ≠ 4 then none
  let rest ← expect? '-' (cs.dropWhile Char.isDigit)
  let (month, rest) ← shortNumber? rest
  let rest ← expect? '-' rest
  let (day, rest) ← shortNumber? rest
  if 1 ≤ month ∧ month ≤ 12 ∧ 1 ≤ day ∧ day ≤ daysIn (Decimal.ofDigits year) month then some rest
  else none

/-- A time of day with an optional fraction of a second at the start of a text. -/
def timeOfDay? (cs : List Char) : Option (List Char) := do
  let (hour, rest) ← shortNumber? cs
  let rest ← expect? ':' rest
  let (minute, rest) ← shortNumber? rest
  let rest ← expect? ':' rest
  let (second, rest) ← shortNumber? rest
  if 24 ≤ hour ∨ 60 ≤ minute ∨ 60 ≤ second then none
  match rest with
  | p :: d :: more =>
    if (p == '.' || p == ',') && d.isDigit then some (more.dropWhile Char.isDigit) else some rest
  | _ => some rest

/-- A whole text that gives an offset from universal time. -/
def isZone : List Char → Bool
  | ['Z'] => true
  | [s, h1, h2, ':', m1, m2] =>
    (s == '+' || s == '-') && [h1, h2, m1, m2].all Char.isDigit &&
      Decimal.ofDigits [h1, h2] ≤ 24 && Decimal.ofDigits [m1, m2] ≤ 60
  | _ => false

/-- A date, alone or with a time of day after a `T` and a zone, or after blanks and no zone. -/
def isTimestamp (cs : List Char) : Bool :=
  match date? cs with
  | none => false
  | some [] => true
  | some (c :: rest) =>
    if c == 'T' || c == 't' then (timeOfDay? rest).any isZone
    else if c == ' ' then timeOfDay? (rest.dropWhile (· == ' ')) == some []
    else false

/-- Underscores stand between digits only. -/
def underscoresSeparate : List Char → Bool
  | '_' :: _ => false
  | d :: '_' :: c :: rest => d.isDigit && c.isDigit && underscoresSeparate (c :: rest)
  | [_, '_'] => false
  | _ :: rest => underscoresSeparate rest
  | [] => true

/-- The meaning of a plain scalar. A timestamp is looked for only if `dates` allows it. -/
def plainMeaning (dates : Bool) (s : String) : Document :=
  if ["", "~", "null", "Null", "NULL"].contains s then .null
  else if ["true", "True", "TRUE"].contains s then .bool true
  else if ["false", "False", "FALSE"].contains s then .bool false
  else if [".nan", ".NaN", ".NAN"].contains s then .float (0 / 0)
  else if [".inf", ".Inf", ".INF", "+.inf", "+.Inf", "+.INF"].contains s then .float (1 / 0)
  else if ["-.inf", "-.Inf", "-.INF"].contains s then .float (-1 / 0)
  else
    match s.toList with
    | '.' :: rest =>
      let cs := '.' :: rest
      if underscoresSeparate cs then
        ((Decimal.read? (cs.filter (· != '_'))).map .float).getD (.text s)
      else .text s
    | c :: rest =>
      if c.isDigit || c == '+' || c == '-' then
        if dates && isTimestamp (c :: rest) then .timestamp
        else
          let cs := (c :: rest).filter (· != '_')
          (((integer? cs).or ((Decimal.read? cs).map .float)).or (innerSigned? cs)).getD (.text s)
      else .text s
    | [] => .null

/-- The short tag of a scalar with a given meaning. -/
def tagOf : Document → String
  | .null => "!!null"
  | .bool _ => "!!bool"
  | .int _ => "!!int"
  | .natural _ => "!!int"
  | .float _ => "!!float"
  | .timestamp => "!!timestamp"
  | _ => "!!str"

/-- The meaning of a scalar; none when it is not what its tag asks for. -/
def meaning? (s : YamlScalar) : Option Document :=
  match s.tag with
  | none => some (if s.isQuoted then .text s.text else plainMeaning true s.text)
  | some "!!str" => some (.text s.text)
  | some tag =>
    match plainMeaning (tag == "!!timestamp") s.text with
    | .int n => if tag == "!!float" then some (.float n.toFloat)
        else if tag == "!!int" then some (.int n) else none
    | d => if tag == tagOf d then some d else none

end YamlScalar

end Treescript
