import Treescript.Decimal.Shortest

/-!
# Number text

The shortest digits of a double, laid out in one of two ways: positional always, or positional for
moderate sizes and with an exponent otherwise. The signed zero keeps its sign, and the three values
that are no numbers have names.
-/

namespace Treescript.Decimal

/-- When digits are written with an exponent (below `10 ^ least` or from `10 ^ most` on), and how
many digits an exponent has at least. -/
structure Layout where
  least : Option Int
  most : Option Int
  width : Nat

/-- Digits and a decimal point only, however long. -/
def Layout.positional : Layout := ⟨none, none, 2⟩

/-- An exponent from a million on and below one ten-thousandth. -/
def Layout.compact : Layout := ⟨some (-4), some 6, 2⟩

/-- Digits with a point after the first `place` of them, zeros filled in on either side. -/
def positional (digits : List Char) (place : Int) : List Char :=
  if place ≤ 0 then '0' :: '.' :: (List.replicate (-place).toNat '0' ++ digits)
  else if digits.length ≤ place.toNat then
    digits ++ List.replicate (place.toNat - digits.length) '0'
  else digits.take place.toNat ++ '.' :: digits.drop place.toNat

/-- One digit before the point, then a signed exponent of at least `width` digits. -/
def scientific (width : Nat) (digits : List Char) (exponent : Int) : List Char :=
  let power := Nat.toDigits 10 exponent.natAbs
  digits.take 1 ++ (if digits.length = 1 then [] else '.' :: digits.drop 1) ++
    'e' :: (if exponent < 0 then '-' else '+') ::
    (List.replicate (width - power.length) '0' ++ power)

/-- The text of a decimal in the given layout. -/
def render (l : Layout) (d : Decimal) : List Char :=
  let digits := Nat.toDigits 10 d.digits
  let place : Int := digits.length + d.exponent
  if l.least.any (place - 1 < ·) || l.most.any (· ≤ place - 1) then
    scientific l.width digits (place - 1)
  else positional digits place

/-- The text of a double in the given layout. -/
def text (l : Layout) (x : Float) : String :=
  let bits := x.toBits
  if x.isNaN then "NaN"
  else
    let sign := Nat.pow 2 63
    let negative := bits.toNat / sign = 1
    if x.isInf then (if negative then "-Inf" else "+Inf")
    else
      let magnitude := UInt64.ofNat (bits.toNat % sign)
      let body := if magnitude = 0 then ['0'] else render l (shortest (Binary.ofBits magnitude))
      String.ofList (if negative then '-' :: body else body)

end Treescript.Decimal
