import ScriptCore.Text.Numeral

/-! # Reading decimal floats

A decimal float is an optional sign, digits with an optional point (at least one digit
in all), and an optional exponent. It denotes the nearest float, ties going to the even
one; what is too large is infinite and what is too small is zero.
-/

namespace ScriptCore.Decimal

/-- The value of an exponent's digits. From `65536` on it is past every float, and further
digits are ignored. -/
def exponentValue (cs : List Char) : Nat :=
  cs.foldl (fun n c => if n < 65536 then 10 * n + (Numeral.digit? c).getD 0 else n) 0

/-- Splits off a leading sign: whether it is a minus, and what follows. -/
def splitSign : List Char → Bool × List Char
  | '-' :: rest => (true, rest)
  | '+' :: rest => (false, rest)
  | rest => (false, rest)

/-- The exponent part, which is empty or a mark, a sign and digits. -/
def readExponent? : List Char → Option Int
  | [] => some 0
  | mark :: rest =>
      let (negative, digits) := splitSign rest
      if (mark == 'e' || mark == 'E') && !digits.isEmpty && digits.all Char.isDigit then
        let n : Int := exponentValue digits
        some (if negative then -n else n)
      else none

/-- Digits before the point, digits after it, and what follows them. -/
def splitMantissa (cs : List Char) : List Char × List Char × List Char :=
  let whole := cs.takeWhile Char.isDigit
  match cs.dropWhile Char.isDigit with
  | '.' :: rest => (whole, rest.takeWhile Char.isDigit, rest.dropWhile Char.isDigit)
  | rest => (whole, [], rest)

/-- The float nearest to `m * 10 ^ e`. -/
def nearestFloat (m : Nat) (e : Int) : Float :=
  Float.ofScientific m (decide (e < 0)) e.natAbs

def read? (cs : List Char) : Option Float :=
  let (negative, rest) := splitSign cs
  let (whole, fraction, tail) := splitMantissa rest
  match Numeral.read? 10 (whole ++ fraction), readExponent? tail with
  | some m, some e =>
      let x := nearestFloat m (e - fraction.length)
      some (if negative then -x else x)
  | _, _ => none

end ScriptCore.Decimal
