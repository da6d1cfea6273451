/-!
# Reading numbers

The double nearest to a decimal number. The scale is held within bounds before any power of ten is
computed, as anything beyond them is zero or infinite.
-/

namespace Treescript.Decimal

/-- The number that decimal digits spell. -/
def ofDigits (digits : List Char) : Nat :=
  digits.foldl (fun n c => 10 * n + (c.toNat - '0'.toNat)) 0

/-- The double nearest to `mantissa * 10 ^ exponent`. -/
def nearest (mantissa : Nat) (exponent : Int) : Float :=
  let size : Int := (Nat.toDigits 10 mantissa).length + exponent
  if mantissa = 0 ∨ size < -400 then 0
  else if 400 < size then 1 / 0
  else if exponent < 0 then Float.ofScientific mantissa true exponent.natAbs
  else Float.ofScientific mantissa false exponent.natAbs

/-- An unsigned decimal: digits, a point and further digits, an exponent. The point and the exponent
may be missing, and so may the digits on one side of the point. -/
def unsigned? (cs : List Char) : Option Float :=
  let whole := cs.takeWhile Char.isDigit
  let (point, afterPoint) :=
    match cs.dropWhile Char.isDigit with
    | '.' :: rest => (true, rest)
    | rest => (false, rest)
  let fraction := if point then afterPoint.takeWhile Char.isDigit else []
  let tail := if point then afterPoint.dropWhile Char.isDigit else afterPoint
  let value (exponent : Int) : Option Float :=
    if whole.isEmpty && fraction.isEmpty then none
    else some (nearest (ofDigits (whole ++ fraction)) (exponent - fraction.length))
  let power (sign : Int) (digits : List Char) : Option Float :=
    if digits.isEmpty || !digits.all Char.isDigit then none
    else value (sign * ofDigits digits)
  match tail with
  | [] => value 0
  | e :: rest =>
    if e == 'e' || e == 'E' then
      match rest with
      | '-' :: digits => power (-1) digits
      | '+' :: digits => power 1 digits
      | digits => power 1 digits
    else none

/-- A decimal with an optional sign; none when it is not one or when it has no finite double. -/
def read? (cs : List Char) : Option Float :=
  let value? :=
    match cs with
    | '-' :: rest => (unsigned? rest).map (- ·)
    | '+' :: rest => unsigned? rest
    | _ => unsigned? cs
  value?.filter fun x => !x.isInf

end Treescript.Decimal
