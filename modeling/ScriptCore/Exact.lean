/-! # The exact value of a float

The bits of a float denote a number, an infinity, or no number at all. Remainder and
integer part work on what the bits denote, in integer arithmetic, so that neither
rounds: every finite float is a whole number of units of `2 ^ (-1074)`.
-/

namespace ScriptCore

/-- What a float denotes. `finite negative m e` is `m * 2 ^ e`, negated when `negative`. -/
inductive Exact where
  | nan
  | infinite (negative : Bool)
  | finite (negative : Bool) (mantissa : Nat) (exponent : Int)
deriving DecidableEq

namespace Exact

/-- How many values the fraction field of 52 bits has. -/
def fractionSize : Nat := 0x10000000000000

/-- The sign bit alone. -/
def signBit : Nat := 0x8000000000000000

/-- Reads sign, exponent field and fraction field off the bits. -/
def ofBits (bits : Nat) : Exact :=
  let negative := decide (signBit ≤ bits)
  let field : Nat := bits / fractionSize % 2048
  let fraction : Nat := bits % fractionSize
  if field = 2047 then
    if fraction = 0 then .infinite negative else .nan
  else if field = 0 then
    .finite negative fraction (-1074)
  else
    .finite negative (fractionSize + fraction) ((field : Int) - 1075)

def ofFloat (x : Float) : Exact :=
  ofBits x.toBits.toNat

def ofInt (n : Int) : Exact :=
  .finite (decide (n < 0)) n.natAbs 0

/-- The magnitude `m * 2 ^ e` counted in units of `2 ^ (-1074)`. -/
def units (m : Nat) (e : Int) : Nat :=
  m <<< (e + 1074).toNat

/-- Where a denotation lies: first below, among or above the finite numbers, then how
many units it is. Not-a-number lies nowhere. -/
def position : Exact → Option (Int × Int)
  | .nan => none
  | .infinite true => some (-1, 0)
  | .infinite false => some (1, 0)
  | .finite true m e => some (0, -(units m e : Int))
  | .finite false m e => some (0, (units m e : Int))

/-- The order of two denotations; `none` when one of them is not a number. -/
def order (a b : Exact) : Option Ordering :=
  match a.position, b.position with
  | some p, some q => some ((compare p.1 q.1).then (compare p.2 q.2))
  | _, _ => none

/-- The float that denotes `count` units of `2 ^ (-1074)`, for a count of the form
`m * 2 ^ k` with `m < 2 ^ 53` inside the float range. -/
def floatOfUnits (negative : Bool) (count : Nat) : Float :=
  let sign := if negative then signBit else 0
  let magnitude :=
    if count < 2 * fractionSize then count
    else
      let k := count.log2 - 52
      (k + 1) * fractionSize + (count >>> k - fractionSize)
  Float.ofBits (UInt64.ofNat (sign + magnitude))

def nanFloat : Float :=
  Float.ofBits 0x7ff8000000000000

/-- The remainder of `x` by `y` for the quotient rounded toward zero: exact, with the
sign of `x`. -/
def remainder (x y : Float) : Float :=
  match ofFloat x, ofFloat y with
  | .finite negative m e, .finite _ n f =>
      if n = 0 then nanFloat else floatOfUnits negative (units m e % units n f)
  | .finite _ _ _, .infinite _ => x
  | _, _ => nanFloat

/-- The magnitude `m * 2 ^ e` without its fractional part. -/
def whole (m : Nat) (e : Int) : Nat :=
  units m e >>> 1074

/-- The integer part of a float as a float: rounded toward zero, with the sign of `x`. -/
def truncate (x : Float) : Float :=
  match ofFloat x with
  | .finite negative m e => floatOfUnits negative (whole m e <<< 1074)
  | _ => x

/-- The integer part of a float as a word, or the word nearest to it; `0` for what is not
a number. -/
def toInt64 (x : Float) : Int64 :=
  match ofFloat x with
  | .nan => 0
  | .infinite true => Int64.minValue
  | .infinite false => Int64.maxValue
  | .finite true m e => Int64.ofIntClamp (-(whole m e : Int))
  | .finite false m e => Int64.ofIntClamp (whole m e : Int)

end Exact

end ScriptCore
