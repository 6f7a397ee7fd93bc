/-! # Hexadecimal text

Numbers written with a fixed count of lowercase hexadecimal digits, and byte
strings written with two digits a byte.
-/

namespace ScriptCore.Hex

/-- The lowest `count` hexadecimal digits of `n`, highest first. -/
def digits : Nat → Nat → List Char
  | 0, _ => []
  | count + 1, n => digits count (n / 16) ++ [Nat.digitChar (n % 16)]

/-- `n` in exactly `count` digits; higher digits are dropped. -/
def padded (count n : Nat) : String :=
  String.ofList (digits count n)

/-- Two digits for each byte, in order. -/
def ofBytes (bytes : List UInt8) : String :=
  String.ofList (bytes.flatMap fun b => digits 2 b.toNat)

@[simp] theorem length_digits (count n : Nat) : (digits count n).length = count := by
  induction count generalizing n with
  | zero => rfl
  | succ count ih => simp [digits, ih]

end ScriptCore.Hex
