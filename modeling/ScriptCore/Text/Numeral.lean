/-! # Numerals

Decimal text of natural numbers and integers, and the value of a digit string in a
base of at most sixteen.
-/

namespace ScriptCore.Numeral

def ofNat (n : Nat) : String :=
  String.ofList (Nat.toDigits 10 n)

/-- A minus sign stands before the digits of a negative number and nowhere else. -/
def ofInt (z : Int) : String :=
  if z < 0 then "-" ++ ofNat z.natAbs else ofNat z.natAbs

/-- The digit that a character stands for; letters count in either case. -/
def digit? (c : Char) : Option Nat :=
  if '0' ≤ c ∧ c ≤ '9' then some (c.toNat - 48)
  else if 'a' ≤ c ∧ c ≤ 'f' then some (c.toNat - 87)
  else if 'A' ≤ c ∧ c ≤ 'F' then some (c.toNat - 55)
  else none

/-- Appends the digits `cs` to the number `n`; fails at a character that is no digit of
the base. -/
def extend? (base n : Nat) : List Char → Option Nat
  | [] => some n
  | c :: cs =>
      match digit? c with
      | some d => if d < base then extend? base (base * n + d) cs else none
      | none => none

/-- The value of a string of one or more digits. -/
def read? (base : Nat) : List Char → Option Nat
  | [] => none
  | c :: cs => extend? base 0 (c :: cs)

def isHexDigit (c : Char) : Bool :=
  '0' ≤ c && c ≤ '9' || 'A' ≤ c && c ≤ 'F' || 'a' ≤ c && c ≤ 'f'

/-- How many numbers 128 bits have. -/
def wideSize : Nat :=
  UInt64.size * UInt64.size

/-- As `extend?`, but fails also when the number takes more than 128 bits. -/
def extendWide? (base n : Nat) : List Char → Option Nat
  | [] => some n
  | c :: cs =>
      match digit? c with
      | some d =>
          if d < base ∧ base * n + d < wideSize then extendWide? base (base * n + d) cs else none
      | none => none

/-- The number of 128 bits that is written in one or more digits, with or without a plus
sign. -/
def readWide? (base : Nat) : List Char → Option (BitVec 128)
  | [] => none
  | '+' :: c :: cs => (extendWide? base 0 (c :: cs)).map (BitVec.ofNat 128)
  | cs => (extendWide? base 0 cs).map (BitVec.ofNat 128)

end ScriptCore.Numeral
