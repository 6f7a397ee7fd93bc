import ScriptCore.Error

/-! # Variable-length integers

A number as groups of seven bits, lowest group first, one group a byte; every byte but
the last has its high bit set. Signed numbers are in two's complement, the sign being
the highest bit of the last group. A reader accepts at most ten groups and refuses what
does not fit in 64 bits; it need not be the shortest form.

Readers return what is left of the input whether or not they succeed.
-/

namespace ScriptCore.Varint

/-- The shortest form of a natural number. -/
def encode (n : Nat) : List UInt8 :=
  let b := UInt8.ofNat n &&& 0x7f
  if n >>> 7 = 0 then [b] else (b ||| 0x80) :: encode (n >>> 7)
termination_by n
decreasing_by
  rw [Nat.shiftRight_eq_div_pow] at *
  omega

/-- How many bytes the shortest form of a natural number has. -/
def size (n : Nat) : Nat :=
  if n < 128 then 1 else 1 + size (n / 128)
termination_by n
decreasing_by omega

/-- Whether no byte is due after `b` when `rest` is what is left of the integer: it is all
zeros or all ones, and the sign bit of `b` says which. -/
def isSettled (b : UInt8) (rest : Int) : Bool :=
  rest == 0 && b &&& 0x40 == 0 || rest == -1 && b &&& 0x40 != 0

theorem natAbs_shiftRight_lt {z : Int}
    (h : ¬ isSettled (UInt8.ofInt z &&& 0x7f) (z >>> (7 : Nat)) = true) :
    (z >>> (7 : Nat)).natAbs < z.natAbs := by
  have hzero : z ≠ 0 := by
    rintro rfl
    exact h (by decide)
  have hones : z ≠ -1 := by
    rintro rfl
    exact h (by decide)
  rw [Int.shiftRight_eq_div_pow]
  omega

/-- The shortest form of an integer. -/
def encodeInt (z : Int) : List UInt8 :=
  let b := UInt8.ofInt z &&& 0x7f
  if isSettled b (z >>> (7 : Nat)) then [b] else (b ||| 0x80) :: encodeInt (z >>> (7 : Nat))
termination_by z.natAbs
decreasing_by exact natAbs_shiftRight_lt (by assumption)

/-- Reads on with at most `groups` bytes. Their payloads go into `word` from bit `shift` on.
The last byte allowed must have room for its payload, and `finish` makes a number of the word,
given the shift behind the last byte and that byte. -/
def decodeGroups (hasRoom : UInt8 → Bool) (finish : Nat → UInt8 → UInt64 → UInt64) :
    Nat → Nat → UInt64 → List UInt8 → Except LoadError UInt64 × List UInt8
  | 0, _, _, bytes => (.error .invalidVarint, bytes)
  | _ + 1, _, _, [] => (.error .unexpectedEnd, [])
  | groups + 1, shift, word, b :: rest =>
      let payload := b &&& 0x7f
      if groups = 0 ∧ hasRoom payload = false then (.error .invalidVarint, rest)
      else
        let word := word ||| payload.toUInt64 <<< UInt64.ofNat shift
        if b &&& 0x80 = 0 then (.ok (finish (shift + 7) b word), rest)
        else decodeGroups hasRoom finish groups (shift + 7) word rest

/-- Reads a natural number below `2 ^ 64`. Of ten bytes the last has room for one bit. -/
def decode (bytes : List UInt8) : Except LoadError Nat × List UInt8 :=
  let (result, rest) := decodeGroups (· ≤ 1) (fun _ _ word => word) 10 0 0 bytes
  (result.map UInt64.toNat, rest)

/-- Copies the sign bit of the last byte into the bits from `shift` on. -/
def signExtend (shift : Nat) (b : UInt8) (word : UInt64) : UInt64 :=
  if shift < 64 ∧ b &&& 0x40 ≠ 0 then word ||| (~~~0) <<< UInt64.ofNat shift else word

/-- Reads an integer from `-2 ^ 63` up to `2 ^ 63 - 1`. Of ten bytes the last has room for the
sign only. -/
def decodeInt (bytes : List UInt8) : Except LoadError Int × List UInt8 :=
  let (result, rest) := decodeGroups (fun p => p = 0 ∨ p = 0x7f) signExtend 10 0 0 bytes
  (result.map (·.toInt64.toInt), rest)

theorem length_decodeGroups_le (hasRoom : UInt8 → Bool) (finish : Nat → UInt8 → UInt64 → UInt64)
    (groups shift : Nat) (word : UInt64) (bytes : List UInt8) :
    (decodeGroups hasRoom finish groups shift word bytes).2.length ≤ bytes.length := by
  fun_induction decodeGroups hasRoom finish groups shift word bytes with
  | case1 => exact Nat.le_refl _
  | case2 => exact Nat.le_refl _
  | case3 => exact Nat.le_succ _
  | case4 => exact Nat.le_succ _
  | case5 _ _ _ _ _ _ _ _ _ ih => exact Nat.le_succ_of_le ih

end ScriptCore.Varint
