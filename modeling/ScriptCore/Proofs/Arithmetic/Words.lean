import Mathlib.Tactic.Linarith
import ScriptCore.Arithmetic

/-!
# Integers are machine words

At a working width an integer stands for a word of that many bits, its pattern in two's
complement. All operators compute on 64-bit words and reduce the result afterwards. For
operands in the signed range of the width that is the operation on the words themselves:
sums, products and bitwise operations never carry high bits into low ones, and the
others see operands whose high bits only repeat the sign.
-/

namespace ScriptCore

namespace Width

/-- The signed range of a width. -/
def InRange (w : Width) (n : Int64) : Prop :=
  -2 ^ (w.bits - 1) ≤ n.toInt ∧ n.toInt < 2 ^ (w.bits - 1)

instance (w : Width) (n : Int64) : Decidable (w.InRange n) :=
  inferInstanceAs (Decidable (_ ∧ _))

/-- The word that an integer stands for. -/
def pattern (w : Width) (n : Int64) : BitVec w.bits :=
  BitVec.ofInt w.bits n.toInt

/-- The signed reading of a word. -/
def reading (w : Width) (x : BitVec w.bits) : Int64 :=
  Int64.ofInt x.toInt

theorem bits_le (w : Width) : w.bits ≤ 64 := by
  cases w <;> decide

theorem bits_dvd (w : Width) : w.bits ∣ 2 ^ 64 := by
  cases w <;> decide

theorem pow_bits_dvd (w : Width) : 2 ^ w.bits ∣ 2 ^ 64 :=
  Nat.pow_dvd_pow 2 w.bits_le

/-- No word is too wide to be read. -/
theorem toInt_reading (w : Width) (x : BitVec w.bits) : (w.reading x).toInt = x.toInt := by
  rw [reading, Int64.toInt_ofInt]
  have hle : (2 : Int) ^ (w.bits - 1) ≤ 2 ^ 63 := by
    cases w <;> decide
  have hlow := BitVec.le_toInt x
  have hhigh := BitVec.toInt_lt (x := x)
  apply Int.bmod_eq_of_le
  · simp only [Int64.size]
    omega
  · simp only [Int64.size]
    omega

theorem inRange_reading (w : Width) (x : BitVec w.bits) : w.InRange (w.reading x) := by
  rw [InRange, toInt_reading]
  exact ⟨BitVec.le_toInt x, BitVec.toInt_lt⟩

/-- An integer in range is read back from its word. -/
theorem toInt_pattern {w : Width} {n : Int64} (h : w.InRange n) :
    (w.pattern n).toInt = n.toInt := by
  obtain ⟨hlow, hhigh⟩ := h
  rw [pattern, BitVec.toInt_ofInt]
  cases w with
  | w32 => apply Int.bmod_eq_of_le <;> simp only [bits] at * <;> omega
  | w64 => apply Int.bmod_eq_of_le <;> simp only [bits] at * <;> omega

/-- A word is the one that its reading stands for. -/
theorem pattern_reading (w : Width) (x : BitVec w.bits) : w.pattern (w.reading x) = x := by
  rw [pattern, toInt_reading, BitVec.ofInt_toInt]

/-- The word of an integer that was reduced to 64 bits is that of the integer itself. -/
theorem pattern_of_toInt {w : Width} {n : Int64} {z : Int} (h : n.toInt = z.bmod (2 ^ 64)) :
    w.pattern n = BitVec.ofInt w.bits z := by
  apply BitVec.eq_of_toInt_eq
  rw [pattern, h, BitVec.toInt_ofInt, BitVec.toInt_ofInt, Int.bmod_bmod_of_dvd w.pow_bits_dvd]

/-- The word of an integer is the low bits of its 64-bit word. -/
theorem pattern_eq_setWidth (w : Width) (n : Int64) :
    w.pattern n = n.toBitVec.setWidth w.bits := by
  apply BitVec.eq_of_toInt_eq
  rw [pattern, BitVec.toInt_ofInt, BitVec.toInt_setWidth, ← Int64.toInt_toBitVec,
    BitVec.toInt_eq_toNat_bmod, Int.bmod_bmod_of_dvd w.pow_bits_dvd]

/-- Reducing an integer to the width reads its word. -/
theorem wrap_eq_reading (w : Width) (n : Int64) : w.wrap n = w.reading (w.pattern n) := by
  apply Int64.toInt.inj
  rw [toInt_reading, pattern, BitVec.toInt_ofInt]
  cases w with
  | w32 => exact (Int32.toInt_toInt64 n.toInt32).trans (Int64.toInt_toInt32 n)
  | w64 =>
      have hrange : Width.w64.InRange n := ⟨n.le_toInt, n.toInt_lt⟩
      have hpattern := toInt_pattern hrange
      rw [pattern, BitVec.toInt_ofInt] at hpattern
      rw [wrap_w64, hpattern]

theorem inRange_wrap (w : Width) (n : Int64) : w.InRange (w.wrap n) := by
  rw [wrap_eq_reading]
  exact w.inRange_reading (w.pattern n)

/-- The integer of the width that is congruent to `z`. -/
def Reduces (w : Width) (z : Int) (n : Int64) : Prop :=
  w.InRange n ∧ n.toInt % 2 ^ w.bits = z % 2 ^ w.bits

instance (w : Width) (z : Int) (n : Int64) : Decidable (w.Reduces z n) :=
  inferInstanceAs (Decidable (_ ∧ _))

/-- The signed integer of width `w` that is congruent to `z` modulo `2 ^ w.bits`. -/
def ofInt (w : Width) (z : Int) : Int64 :=
  w.wrap (Int64.ofInt z)

theorem reduces_ofInt (w : Width) (z : Int) : w.Reduces z (w.ofInt z) := by
  have hpattern : w.pattern (Int64.ofInt z) = BitVec.ofInt w.bits z :=
    pattern_of_toInt Int64.toInt_ofInt
  refine ⟨w.inRange_wrap _, ?_⟩
  rw [ofInt, wrap_eq_reading, toInt_reading, hpattern, BitVec.toInt_ofInt]
  exact_mod_cast Int.bmod_emod

/-- A width has only one integer that is congruent to `z`. -/
theorem Reduces.unique {w : Width} {z : Int} {m n : Int64} (hm : w.Reduces z m)
    (hn : w.Reduces z n) : m = n := by
  obtain ⟨hm, hmmod⟩ := hm
  obtain ⟨hn, hnmod⟩ := hn
  have hmod := hmmod.trans hnmod.symm
  apply Int64.toInt.inj
  cases w <;> simp only [InRange, bits] at * <;> omega

/-- Shift distances are taken from the signed reading, by the remainder that is not
negative. -/
theorem shiftDistance_eq (w : Width) (n : Int64) :
    w.shiftDistance n = (n.toInt % w.bits).toNat := by
  have hdvd : (w.bits : Int) ∣ (2 ^ 64 : Nat) := Int.natCast_dvd_natCast.mpr w.bits_dvd
  have hemod : n.toInt % (w.bits : Int) = (n.toBitVec.toNat : Int) % w.bits := by
    rw [← Int64.toInt_toBitVec, BitVec.toInt_eq_toNat_bmod]
    rw [← Int.emod_emod_of_dvd _ hdvd, Int.bmod_emod, Int.emod_emod_of_dvd _ hdvd]
  rw [shiftDistance, hemod, ← Int.natCast_mod, Int.toNat_natCast]

end Width

namespace BinaryOperator

/-- The operators that a zero on the right makes fail. -/
def divides : BinaryOperator → Bool
  | .div | .rem => true
  | _ => false

/-- The operators that carry bits upward only, so that low bits of the result come from low
bits of the operands. -/
def carriesUp : BinaryOperator → Bool
  | .add | .sub | .mul | .and | .or | .xor => true
  | _ => false

/-- The operation on words of any length. Quotients are rounded toward zero and remainders
have the sign of the dividend. A shift moves by the signed right operand modulo the
length, and a right shift repeats the sign. -/
def onWords {n : Nat} (op : BinaryOperator) (x y : BitVec n) : BitVec n :=
  match op with
  | .add => x + y
  | .sub => x - y
  | .mul => x * y
  | .div => x.sdiv y
  | .rem => x.srem y
  | .and => x &&& y
  | .or => x ||| y
  | .xor => x ^^^ y
  | .shl => x <<< (y.toInt % n).toNat
  | .shr => x.sshiftRight (y.toInt % n).toNat

end BinaryOperator

namespace Arithmetic

open Width

variable {w : Width} {a b : Int64}

theorem pattern_div (ha : w.InRange a) (hb : w.InRange b) :
    w.pattern (a / b) = (w.pattern a).sdiv (w.pattern b) := by
  rw [pattern_of_toInt (Int64.toInt_div a b)]
  apply BitVec.eq_of_toInt_eq
  rw [BitVec.toInt_ofInt, BitVec.toInt_sdiv, toInt_pattern ha, toInt_pattern hb]

theorem pattern_rem (ha : w.InRange a) (hb : w.InRange b) :
    w.pattern (a % b) = (w.pattern a).srem (w.pattern b) := by
  calc
    w.pattern (a % b) = BitVec.ofInt w.bits (a.toInt.tmod b.toInt) := by
      rw [pattern, Int64.toInt_mod]
    _ = BitVec.ofInt w.bits ((w.pattern a).srem (w.pattern b)).toInt := by
      rw [BitVec.toInt_srem, toInt_pattern ha, toInt_pattern hb]
    _ = (w.pattern a).srem (w.pattern b) := BitVec.ofInt_toInt

theorem pattern_shiftRight (ha : w.InRange a) (k : Nat) :
    w.pattern (Int64.ofBitVec (a.toBitVec.sshiftRight k)) = (w.pattern a).sshiftRight k := by
  calc
    w.pattern (Int64.ofBitVec (a.toBitVec.sshiftRight k))
        = BitVec.ofInt w.bits (a.toInt >>> k) := by
      rw [pattern, Int64.toInt_ofBitVec, BitVec.toInt_sshiftRight, Int64.toInt_toBitVec]
    _ = BitVec.ofInt w.bits ((w.pattern a).sshiftRight k).toInt := by
      rw [BitVec.toInt_sshiftRight, toInt_pattern ha]
    _ = (w.pattern a).sshiftRight k := BitVec.ofInt_toInt

theorem pattern_add : w.pattern (a + b) = w.pattern a + w.pattern b := by
  rw [pattern_of_toInt (Int64.toInt_add a b), BitVec.ofInt_add]
  rfl

theorem pattern_neg : w.pattern (-a) = -w.pattern a := by
  rw [pattern_of_toInt (Int64.toInt_neg a), BitVec.ofInt_neg]
  rfl

theorem pattern_sub : w.pattern (a - b) = w.pattern a - w.pattern b := by
  rw [Int64.sub_eq_add_neg, pattern_add, pattern_neg, BitVec.sub_eq_add_neg]

theorem pattern_mul : w.pattern (a * b) = w.pattern a * w.pattern b := by
  rw [pattern_of_toInt (Int64.toInt_mul a b), BitVec.ofInt_mul]
  rfl

theorem pattern_shiftLeft (k : Nat) :
    w.pattern (Int64.ofBitVec (a.toBitVec <<< k)) = w.pattern a <<< k := by
  rw [pattern_eq_setWidth, pattern_eq_setWidth, Int64.toBitVec_ofBitVec,
    BitVec.setWidth_shiftLeft_of_le w.bits_le]

theorem pattern_not : w.pattern (~~~a) = ~~~w.pattern a := by
  simp only [pattern_eq_setWidth, Int64.toBitVec_not, BitVec.setWidth_not w.bits_le]

theorem pattern_and : w.pattern (a &&& b) = w.pattern a &&& w.pattern b := by
  simp only [pattern_eq_setWidth, Int64.toBitVec_and, BitVec.setWidth_and]

theorem pattern_or : w.pattern (a ||| b) = w.pattern a ||| w.pattern b := by
  simp only [pattern_eq_setWidth, Int64.toBitVec_or, BitVec.setWidth_or]

theorem pattern_xor : w.pattern (a ^^^ b) = w.pattern a ^^^ w.pattern b := by
  simp only [pattern_eq_setWidth, Int64.toBitVec_xor, BitVec.setWidth_xor]

/-- An operator that carries upward acts on the words of any operands, and of any width. -/
theorem wordOp_of_carriesUp {op : BinaryOperator} (hop : op.carriesUp = true) (v w : Width)
    (a b : Int64) :
    ∃ r, wordOp w a b op = .ok r ∧ v.pattern r = op.onWords (v.pattern a) (v.pattern b) := by
  cases op with
  | add => exact ⟨_, rfl, pattern_add⟩
  | sub => exact ⟨_, rfl, pattern_sub⟩
  | mul => exact ⟨_, rfl, pattern_mul⟩
  | and => exact ⟨_, rfl, pattern_and⟩
  | or => exact ⟨_, rfl, pattern_or⟩
  | xor => exact ⟨_, rfl, pattern_xor⟩
  | div | rem | shl | shr => contradiction

theorem wordOp_eq_ok (op : BinaryOperator) (ha : w.InRange a) (hb : w.InRange b)
    (hop : ¬ (op.divides = true ∧ b = 0)) :
    ∃ r, wordOp w a b op = .ok r ∧ w.pattern r = op.onWords (w.pattern a) (w.pattern b) := by
  cases op with
  | div =>
      have hb0 : b ≠ 0 := fun h => hop ⟨rfl, h⟩
      exact ⟨_, if_neg hb0, pattern_div ha hb⟩
  | rem =>
      have hb0 : b ≠ 0 := fun h => hop ⟨rfl, h⟩
      exact ⟨_, if_neg hb0, pattern_rem ha hb⟩
  | shl =>
      refine ⟨_, rfl, ?_⟩
      rw [BinaryOperator.onWords, toInt_pattern hb, ← shiftDistance_eq]
      exact pattern_shiftLeft _
  | shr =>
      refine ⟨_, rfl, ?_⟩
      rw [BinaryOperator.onWords, toInt_pattern hb, ← shiftDistance_eq]
      exact pattern_shiftRight ha _
  | _ => exact wordOp_of_carriesUp rfl w w a b

/-- The result of an operator on integers, once it is known on 64-bit words. -/
theorem binary_of_wordOp {op : BinaryOperator} {r : Int64} (h : wordOp w a b op = .ok r) :
    binary w op (.int a) (.int b) = .ok (.int (w.reading (w.pattern r))) := by
  rw [← wrap_eq_reading]
  simp only [binary, intOp, h, Except.map]

/-- Whatever the operands, a result of an operator is an integer in range. -/
theorem inRange_of_binary {op : BinaryOperator} {v : Value}
    (h : binary w op (.int a) (.int b) = .ok v) : ∃ n, v = .int n ∧ w.InRange n := by
  cases hword : wordOp w a b op with
  | error e => simp only [binary, intOp, hword, Except.map, reduceCtorEq] at h
  | ok r =>
      rw [binary_of_wordOp hword] at h
      exact ⟨_, (Except.ok.inj h).symm, w.inRange_reading _⟩

/-- Integer arithmetic is that of machine words at the working width. An operator on
integers in range fails exactly when it divides by zero, and otherwise gives the signed
reading of the operation on their words. The unary operations give that of the operation
on the word of any integer. Readings are in range, as is every result of an operator. -/
theorem integers_compute_as_words (w : Width) :
    (∀ op a b, w.InRange a → w.InRange b →
      binary w op (.int a) (.int b) =
        if op.divides ∧ b = 0 then .error .divisionByZero
        else .ok (.int (w.reading (op.onWords (w.pattern a) (w.pattern b))))) ∧
    (∀ a,
      negate w (.int a) = .ok (.int (w.reading (-w.pattern a))) ∧
      complement w (.int a) = .ok (.int (w.reading (~~~w.pattern a))) ∧
      increment w (.int a) =
        .ok (.int (w.reading (w.pattern a + 1))) (.int (w.reading (w.pattern a + 1))) ∧
      decrement w (.int a) =
        .ok (.int (w.reading (w.pattern a - 1))) (.int (w.reading (w.pattern a - 1)))) ∧
    (∀ x, (w.reading x).toInt = x.toInt ∧ w.InRange (w.reading x)) ∧
    (∀ op a b v, binary w op (.int a) (.int b) = .ok v → ∃ n, v = .int n ∧ w.InRange n) := by
  refine ⟨?_, ?_, fun x => ⟨w.toInt_reading x, w.inRange_reading x⟩,
    fun op a b v => inRange_of_binary⟩
  · intro op a b ha hb
    split
    · rename_i hzero
      obtain ⟨hop, rfl⟩ := hzero
      cases op with
      | div => rfl
      | rem => rfl
      | _ => contradiction
    · rename_i hop
      obtain ⟨r, hword, hpattern⟩ := wordOp_eq_ok op ha hb hop
      rw [binary_of_wordOp hword, hpattern]
  · intro a
    have hone : w.pattern 1 = 1 := by
      cases w <;> rfl
    have hnext : w.wrap (a + 1) = w.reading (w.pattern a + 1) := by
      rw [wrap_eq_reading, pattern_add, hone]
    have hprevious : w.wrap (a + -1) = w.reading (w.pattern a - 1) := by
      rw [wrap_eq_reading, pattern_add, pattern_neg, hone, BitVec.sub_eq_add_neg]
    refine ⟨?_, ?_, ?_, ?_⟩
    · rw [negate, wrap_eq_reading, pattern_neg]
    · rw [complement, wrap_eq_reading, pattern_not]
    · rw [increment, advance, hnext]
    · rw [decrement, advance, hprevious]

/-- The least integer divided by minus one is itself. -/
theorem least_integer_divided_by_minus_one :
    Width.w32.InRange (-2147483648) ∧ Width.w32.InRange (-1) ∧
      binary .w32 .div (.int (-2147483648)) (.int (-1)) = .ok (.int (-2147483648)) := by
  refine ⟨by decide, by decide, ?_⟩
  rw [(integers_compute_as_words .w32).1 .div (-2147483648) (-1) (by decide) (by decide)]
  rfl

-- A shift by a negative distance: one bit less than the width.
example : binary .w32 .shl (.int 1) (.int (-1)) = .ok (.int (-2147483648)) := rfl

end Arithmetic

end ScriptCore
