/-!
# Shortest decimals

A positive double is `m * 2 ^ q` for a whole number `m`. `shortest` finds the decimal with the
fewest digits that lies in the interval of reals that round to it, and among those the one nearest
to the double. All comparisons are exact, on whole numbers.
-/

namespace Treescript

/-- The number `digits * 10 ^ exponent`. -/
structure Decimal where
  digits : Nat
  exponent : Int
  deriving DecidableEq, Repr

namespace Decimal

/-- A positive double as `mantissa * 2 ^ exponent`. `narrow` marks a double at the bottom of its
binade, whose lower neighbour is half as far away as the upper one. -/
structure Binary where
  mantissa : Nat
  exponent : Int
  narrow : Bool
  deriving DecidableEq, Repr

/-- Reads a positive finite double's parts off its bits. -/
def Binary.ofBits (bits : UInt64) : Binary :=
  let hidden := Nat.pow 2 52
  let fraction := bits.toNat % hidden
  let biased := bits.toNat / hidden % Nat.pow 2 11
  if biased = 0 then ⟨fraction, -1074, false⟩
  else ⟨fraction + hidden, (biased : Int) - 1075, fraction = 0 && 1 < biased⟩

/-- A value and the ends of its rounding interval over one common denominator. -/
structure Interval where
  low : Nat
  value : Nat
  high : Nat
  denominator : Nat
  closed : Bool

/-- The reals that round to a double: half the way to each neighbour, the ends included when the
mantissa is even. -/
def Binary.interval (b : Binary) : Interval :=
  let up := Nat.pow 2 b.exponent.toNat
  { low := (4 * b.mantissa - (if b.narrow then 1 else 2)) * up
    value := 4 * b.mantissa * up
    high := (4 * b.mantissa + 2) * up
    denominator := 4 * Nat.pow 2 (-b.exponent).toNat
    closed := b.mantissa % 2 = 0 }

/-- Whether `point / (scale * denominator)` lies in the interval. -/
def Interval.holds (i : Interval) (scale point : Nat) : Bool :=
  if i.closed then i.low * scale ≤ point && point ≤ i.high * scale
  else i.low * scale < point && point < i.high * scale

/-- A nearest point of the grid of multiples of `10 ^ place`, when the grid meets the interval; of
two that are equally near, the one with the even last digit. -/
def Interval.onGrid (i : Interval) (place : Int) : Option Decimal :=
  let scale := Nat.pow 10 (-place).toNat
  let unit := Nat.pow 10 place.toNat * i.denominator
  let below := i.value * scale / unit
  let inBelow := i.holds scale (below * unit)
  let inAbove := i.holds scale ((below + 1) * unit)
  if inBelow && inAbove then
    let middle := (2 * below + 1) * unit
    if 2 * (i.value * scale) < middle ∨ 2 * (i.value * scale) = middle ∧ below % 2 = 0 then
      some ⟨below, place⟩
    else some ⟨below + 1, place⟩
  else if inBelow then some ⟨below, place⟩
  else if inAbove then some ⟨below + 1, place⟩
  else none

/-- The finest of `count` successive grids is tried last. -/
def Interval.search (i : Interval) (place : Int) : Nat → Decimal
  | 0 => ⟨i.value / i.denominator, 0⟩
  | count + 1 => (i.onGrid place).getD (i.search (place - 1) count)

/-- Moves the factors of ten out of the digits, at most `fuel` of them. -/
def strip (digits : Nat) (exponent : Int) : Nat → Decimal
  | 0 => ⟨digits, exponent⟩
  | fuel + 1 =>
    if digits % 10 = 0 ∧ digits ≠ 0 then strip (digits / 10) (exponent + 1) fuel
    else ⟨digits, exponent⟩

/-- The place of the leading digit, off by at most one: a double below `2 ^ n` is below
`10 ^ (n * 0.30103 + 1)`. -/
def Binary.leadingPlace (b : Binary) : Int :=
  ((b.mantissa.log2 + 1 + b.exponent) * 30103) / 100000 + 1

/-- The shortest decimal that reads back as the positive finite double. -/
def shortest (b : Binary) : Decimal :=
  let found := b.interval.search b.leadingPlace 20
  strip found.digits found.exponent 400

end Decimal

end Treescript
