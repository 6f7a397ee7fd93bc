import ScriptCore.Exact

/-! # Shortest decimal text of a float

A finite float stands for an interval of real numbers: those that round to it. Its
text is a decimal inside that interval with as few digits as possible, the nearest of
those, and of two equally near ones the larger. It is written positionally, without an
exponent, and without a fractional part when it is whole.
-/

namespace ScriptCore

/-- The number `coefficient * 10 ^ exponent`. -/
structure Decimal where
  coefficient : Nat
  exponent : Int
deriving DecidableEq

namespace Decimal

/-- The real numbers that round to one float, scaled by a common denominator: from
`low` to `high` around `value`, the ends belonging to it when `closed`. -/
structure Interval where
  low : Nat
  value : Nat
  high : Nat
  denominator : Nat
  closed : Bool

/-- The interval of the float `m * 2 ^ e`. The gap below a power of two is half as wide
as the gap above it, except at the bottom of the exponent range. -/
def Interval.ofFinite (m : Nat) (e : Int) : Interval :=
  let below := if m = Exact.fractionSize ∧ -1074 < e then 1 else 2
  let up := 1 <<< (e - 2).toNat
  { low := (4 * m - below) * up
    value := 4 * m * up
    high := (4 * m + 2) * up
    denominator := 1 <<< (2 - e).toNat
    closed := m % 2 == 0 }

/-- How many decimal digits stand before the point of `value / denominator`; zero or
negative when the number is below one. -/
def Interval.magnitude (i : Interval) : Int :=
  if i.denominator ≤ i.value then
    (Nat.toDigits 10 (i.value / i.denominator)).length
  else
    1 - ((Nat.toDigits 10 ((i.denominator - 1) / i.value)).length : Int)

/-- The interval with every number divided by `10 ^ s`. -/
def Interval.scale (i : Interval) (s : Int) : Interval :=
  let up := Nat.pow 10 (-s).toNat
  { low := i.low * up
    value := i.value * up
    high := i.high * up
    denominator := i.denominator * Nat.pow 10 s.toNat
    closed := i.closed }

/-- Whether the whole number `c` lies in the interval. -/
def Interval.holds (i : Interval) (c : Nat) : Bool :=
  let p := c * i.denominator
  if i.closed then i.low ≤ p && p ≤ i.high else i.low < p && p < i.high

/-- The whole number in the interval that is nearest to its value, if one of the two
neighbours of the value lies in it; halfway goes up. -/
def Interval.nearest? (i : Interval) : Option Nat :=
  let c := i.value / i.denominator
  match i.holds c, i.holds (c + 1) with
  | true, true =>
      if 2 * (i.value - c * i.denominator) < i.denominator then some c else some (c + 1)
  | true, false => some c
  | false, true => some (c + 1)
  | false, false => none

/-- Tries `count` digits, then one more, for at most `more` further attempts. -/
def Interval.search (i : Interval) (count : Nat) : Nat → Decimal
  | 0 => ⟨(i.scale (i.magnitude - count)).value / (i.scale (i.magnitude - count)).denominator,
      i.magnitude - count⟩
  | more + 1 =>
      let s := i.magnitude - count
      match (i.scale s).nearest? with
      | some c => ⟨c, s⟩
      | none => i.search (count + 1) more

/-- The shortest decimal that rounds to `m * 2 ^ e`; seventeen digits always suffice. -/
def shortest (m : Nat) (e : Int) : Decimal :=
  (Interval.ofFinite m e).search 1 17

/-- Positional digits of `d`, without trailing zeros after the point. -/
def text (d : Decimal) : String :=
  let digits := Nat.toDigits 10 d.coefficient
  if 0 ≤ d.exponent then
    String.ofList (digits ++ List.replicate d.exponent.toNat '0')
  else
    let places := (-d.exponent).toNat
    let padded := List.replicate (places + 1 - digits.length) '0' ++ digits
    let whole := padded.take (padded.length - places)
    let fraction := ((padded.drop (padded.length - places)).reverse.dropWhile (· == '0')).reverse
    if fraction.isEmpty then String.ofList whole
    else String.ofList (whole ++ '.' :: fraction)

/-- The text of a float, by what it denotes. -/
def floatText (x : Float) : String :=
  match Exact.ofFloat x with
  | .nan => "NaN"
  | .infinite true => "-inf"
  | .infinite false => "inf"
  | .finite negative m e =>
      let digits := if m = 0 then "0" else (shortest m e).text
      if negative then "-" ++ digits else digits

end Decimal

end ScriptCore
