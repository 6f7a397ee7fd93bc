import Mathlib
import ScriptCore.Exact

/-!
# The comparisons of floats

The order of floats looks at exponents first and at mantissas only when the exponents are the
same. That is the order of the numbers denoted because a float has its full mantissa unless
its exponent is the smallest.
-/

namespace ScriptCore.Exact

open Float.Model (Format UnpackedFloat)
open Float.Model.UnpackedFloat

def isNegative : Sign → Bool
  | .negative => true
  | .positive => false

/-- What an unpacked float denotes. -/
def ofUnpacked : UnpackedFloat → Exact
  | .notANumber => .nan
  | .infinity s => .infinite (isNegative s)
  | .zero s => .finite (isNegative s) 0 (-1074)
  | .finite s m e _ => .finite (isNegative s) m e

/-- What a float can denote: the mantissa is full unless the exponent is the smallest. -/
def Canonical : Exact → Prop
  | .finite _ m e =>
      m < 2 * fractionSize ∧ -1074 ≤ e ∧ e ≤ 971 ∧ (fractionSize ≤ m ∨ e = -1074)
  | _ => True

section Fields

variable (b : BitVec Format.binary64.numBits)

theorem toNat_unpackMantissa : (unpackMantissa b).toNat = b.toNat % fractionSize := by
  simp only [unpackMantissa, BitVec.toNat_cast, BitVec.extractLsb_toNat, Nat.shiftRight_zero]
  rfl

theorem toNat_unpackExponent : (unpackExponent b).toNat = b.toNat / fractionSize % 2048 := by
  simp only [unpackExponent, BitVec.toNat_cast, BitVec.extractLsb_toNat,
    Nat.shiftRight_eq_div_pow]
  rfl

theorem isNegative_unpackSign :
    isNegative (Sign.ofBitVec (unpackSign b)) = decide (signBit ≤ b.toNat) := by
  have hlt : b.toNat < 2 * signBit := b.isLt
  have hsign : (unpackSign b).toNat = b.toNat / signBit % 2 := by
    simp only [unpackSign, BitVec.toNat_cast, BitVec.extractLsb_toNat,
      Nat.shiftRight_eq_div_pow]
    rfl
  have hzero : unpackSign b = 0#1 ↔ b.toNat < signBit := by
    rw [← BitVec.toNat_inj, hsign]
    change b.toNat / signBit % 2 = 0 ↔ _
    simp only [signBit] at hlt ⊢
    omega
  rw [Sign.ofBitVec]
  by_cases h : b.toNat < signBit
  · rw [if_pos (hzero.mpr h), decide_eq_false (Nat.not_le.mpr h)]
    rfl
  · rw [if_neg (mt hzero.mp h), decide_eq_true (Nat.not_lt.mp h)]
    rfl

theorem toNat_one_append (m : BitVec 52) : (1#1 ++ m).toNat = fractionSize + m.toNat := by
  rw [BitVec.toNat_append, ← Nat.shiftLeft_add_eq_or_of_lt m.isLt]
  rfl

/-- The parts that the fields unpack to are the parts read off the bits. -/
theorem ofUnpacked_unpack : ofUnpacked (unpack Format.binary64 b) = ofBits b.toNat := by
  have hmantissa := toNat_unpackMantissa b
  have hexponent := toNat_unpackExponent b
  have hsign := isNegative_unpackSign b
  have hnone : unpackMantissa b = 0#_ ↔ b.toNat % fractionSize = 0 := by
    rw [← BitVec.toNat_inj, hmantissa]
    rfl
  have hleast : unpackExponent b = 0#_ ↔ b.toNat / fractionSize % 2048 = 0 := by
    rw [← BitVec.toNat_inj, hexponent]
    rfl
  have hlargest : unpackExponent b = -1#_ ↔ b.toNat / fractionSize % 2048 = 2047 := by
    rw [← BitVec.toNat_inj, hexponent]
    rfl
  simp only [unpack, ofBits, ← hsign]
  by_cases hlarge : unpackExponent b = -1#_
  · rw [if_pos hlarge, if_pos (hlargest.mp hlarge)]
    by_cases hm : unpackMantissa b = 0#_
    · rw [if_pos hm, if_pos (hnone.mp hm)]
      rfl
    · rw [if_neg hm, if_neg (mt hnone.mpr hm)]
      rfl
  · rw [if_neg hlarge, if_neg (mt hlargest.mpr hlarge)]
    by_cases hsmall : unpackExponent b = 0#_
    · rw [if_pos hsmall, if_pos (hleast.mp hsmall)]
      by_cases hm : unpackMantissa b = 0#_
      · rw [dif_pos hm, hnone.mp hm]
        rfl
      · rw [dif_neg hm, ofUnpacked, hmantissa, hexponent, hleast.mp hsmall]
        rfl
    · rw [if_neg hsmall, if_neg (mt hleast.mpr hsmall), ofUnpacked, toNat_one_append,
        hmantissa, hexponent]
      rfl

end Fields

theorem canonical_ofBits (bits : Nat) : (ofBits bits).Canonical := by
  have hfraction : bits % fractionSize < fractionSize := Nat.mod_lt _ (by decide)
  simp only [ofBits]
  split
  · split
    · exact trivial
    · exact trivial
  · split
    · exact ⟨by omega, Int.le_refl _, by omega, .inr rfl⟩
    · exact ⟨by omega, by omega, by omega, .inl (Nat.le_add_right _ _)⟩

theorem units_eq_mul (m : Nat) (e : Int) : units m e = m * 2 ^ (e + 1074).toNat :=
  Nat.shiftLeft_eq _ _

theorem units_pos {m : Nat} (hm : 0 < m) (e : Int) : 0 < units m e := by
  rw [units_eq_mul]
  positivity

/-- A larger exponent outweighs every mantissa. -/
theorem units_lt_units {s t : Bool} {m n : Nat} {e f : Int} (hm : (finite s m e).Canonical)
    (hn : (finite t n f).Canonical) (h : e < f) : units m e < units n f := by
  obtain ⟨hlt, hleast, -, -⟩ := hm
  obtain ⟨-, -, -, hfull⟩ := hn
  have hn : fractionSize ≤ n := hfull.resolve_right (by omega)
  have hexponent : (e + 1074).toNat + 1 ≤ (f + 1074).toNat := by omega
  calc
    units m e = m * 2 ^ (e + 1074).toNat := units_eq_mul m e
    _ < 2 * fractionSize * 2 ^ (e + 1074).toNat := by gcongr
    _ = fractionSize * 2 ^ ((e + 1074).toNat + 1) := by ring
    _ ≤ n * 2 ^ (f + 1074).toNat := by gcongr; omega
    _ = units n f := (units_eq_mul n f).symm

/-- Canonical magnitudes are ordered by exponent, then by mantissa. -/
theorem compare_units {s t : Bool} {m n : Nat} {e f : Int} (hm : (finite s m e).Canonical)
    (hn : (finite t n f).Canonical) :
    compare (units m e : Int) (units n f) = (compare e f).then (compare m n) := by
  rcases Int.lt_trichotomy e f with h | rfl | h
  · rw [Int.compare_eq_lt.mpr h, Int.compare_eq_lt.mpr (mod_cast units_lt_units hm hn h)]
    rfl
  · rw [Int.compare_eq_eq.mpr rfl, units_eq_mul, units_eq_mul]
    rcases Nat.lt_trichotomy m n with h | rfl | h
    · rw [Nat.compare_eq_lt.mpr h, Int.compare_eq_lt.mpr]
      · rfl
      · exact_mod_cast Nat.mul_lt_mul_of_pos_right h (by positivity)
    · rw [Nat.compare_eq_eq.mpr rfl, Int.compare_eq_eq.mpr rfl]
      rfl
    · rw [Nat.compare_eq_gt.mpr h, Int.compare_eq_gt.mpr]
      · rfl
      · exact_mod_cast Nat.mul_lt_mul_of_pos_right h (by positivity)
  · rw [Int.compare_eq_gt.mpr h, Int.compare_eq_gt.mpr (mod_cast units_lt_units hn hm h)]
    rfl

theorem compare_neg (a b : Int) : compare (-a) (-b) = (compare a b).swap := by
  rw [Int.compare_swap]
  rcases Int.lt_trichotomy a b with h | rfl | h
  · rw [Int.compare_eq_gt.mpr h, Int.compare_eq_gt.mpr (by omega)]
  · rw [Int.compare_eq_eq.mpr rfl, Int.compare_eq_eq.mpr rfl]
  · rw [Int.compare_eq_lt.mpr h, Int.compare_eq_lt.mpr (by omega)]

section Finite

variable (s t : Sign) {m n : Nat} {e f : Int} (hm : 0 < m) (hn : 0 < n)

/-- A zero is on the side of a number that the number's sign says. -/
theorem compare_zero_finite : (UnpackedFloat.zero s).compare (.finite t n f hn) =
    (ofUnpacked (.zero s)).order (ofUnpacked (.finite t n f hn)) := by
  have hpos := units_pos hn f
  cases t with
  | negative =>
      have hgt : compare (0 : Int) (-(units n f : Int)) = .gt := Int.compare_eq_gt.mpr (by omega)
      cases s <;> exact congrArg some hgt.symm
  | positive =>
      have hlt : compare (0 : Int) (units n f) = .lt := Int.compare_eq_lt.mpr (by omega)
      cases s <;> exact congrArg some hlt.symm

theorem compare_finite_zero : (UnpackedFloat.finite s m e hm).compare (.zero t) =
    (ofUnpacked (.finite s m e hm)).order (ofUnpacked (.zero t)) := by
  have hpos := units_pos hm e
  cases s with
  | negative =>
      have hlt : compare (-(units m e : Int)) 0 = .lt := Int.compare_eq_lt.mpr (by omega)
      cases t <;> exact congrArg some hlt.symm
  | positive =>
      have hgt : compare (units m e : Int) 0 = .gt := Int.compare_eq_gt.mpr (by omega)
      cases t <;> exact congrArg some hgt.symm

/-- Numbers of one sign are ordered by their magnitudes, others by their signs. -/
theorem compare_finite (ha : (ofUnpacked (.finite s m e hm)).Canonical)
    (hb : (ofUnpacked (.finite t n f hn)).Canonical) :
    (UnpackedFloat.finite s m e hm).compare (.finite t n f hn) =
      (ofUnpacked (.finite s m e hm)).order (ofUnpacked (.finite t n f hn)) := by
  have hposm := units_pos hm e
  have hposn := units_pos hn f
  have hcompare := compare_units ha hb
  cases s with
  | negative =>
      cases t with
      | negative =>
          have hswap := compare_neg (units m e) (units n f)
          exact congrArg some ((congrArg Ordering.swap hcompare).symm.trans hswap.symm)
      | positive => exact congrArg some (Int.compare_eq_lt.mpr (by omega)).symm
  | positive =>
      cases t with
      | negative => exact congrArg some (Int.compare_eq_gt.mpr (by omega)).symm
      | positive => exact congrArg some hcompare.symm

end Finite

/-- Unpacked floats are ordered as what they denote. -/
theorem compare_unpacked {a b : UnpackedFloat} (ha : (ofUnpacked a).Canonical)
    (hb : (ofUnpacked b).Canonical) : a.compare b = (ofUnpacked a).order (ofUnpacked b) := by
  cases a with
  | notANumber => rfl
  | infinity s =>
      cases b with
      | notANumber => cases s <;> rfl
      | infinity t => cases s <;> cases t <;> rfl
      | zero t => cases s <;> cases t <;> rfl
      | finite t n f hn => cases s <;> cases t <;> rfl
  | zero s =>
      cases b with
      | notANumber => cases s <;> rfl
      | infinity t => cases s <;> cases t <;> rfl
      | zero t => cases s <;> cases t <;> rfl
      | finite t n f hn => exact compare_zero_finite s t hn
  | finite s m e hm =>
      cases b with
      | notANumber => cases s <;> rfl
      | infinity t => cases s <;> cases t <;> rfl
      | zero t => exact compare_finite_zero s t hm
      | finite t n f hn => exact compare_finite s t hm hn ha hb

theorem canonical_ofFloat (x : Float) : (ofFloat x).Canonical :=
  canonical_ofBits _

theorem ofUnpacked_toModel (x : Float) : ofUnpacked x.toModel.unpack = ofFloat x :=
  ofUnpacked_unpack x.toModel.toBits.toBitVec

theorem compare_toModel (x y : Float) :
    x.toModel.unpack.compare y.toModel.unpack = (ofFloat x).order (ofFloat y) := by
  rw [← ofUnpacked_toModel, ← ofUnpacked_toModel]
  apply compare_unpacked
  · rw [ofUnpacked_toModel]
    exact canonical_ofFloat x
  · rw [ofUnpacked_toModel]
    exact canonical_ofFloat y

theorem float_lt_iff (x y : Float) : x < y ↔ (ofFloat x).order (ofFloat y) = some .lt := by
  rw [← compare_toModel]
  change decide (x.toModel < y.toModel) = true ↔ _
  rw [decide_eq_true_iff]
  change (x.toModel.unpack.compare y.toModel.unpack == some .lt) = true ↔ _
  exact beq_iff_eq

theorem float_le_iff (x y : Float) :
    x ≤ y ↔ ((ofFloat x).order (ofFloat y)).any (·.isLE) = true := by
  rw [← compare_toModel]
  change decide (x.toModel ≤ y.toModel) = true ↔ _
  rw [decide_eq_true_iff]
  rfl

theorem float_beq_eq (x y : Float) :
    (x == y) = ((ofFloat x).order (ofFloat y) == some .eq) := by
  rw [← compare_toModel]
  rfl

theorem isNaN_iff (x : Float) : x.isNaN = true ↔ ofFloat x = .nan := by
  rw [← ofUnpacked_toModel]
  change x.toModel.unpack.isNaN = true ↔ _
  cases x.toModel.unpack with
  | notANumber => simp [isNaN, ofUnpacked]
  | _ => simp [isNaN, ofUnpacked]

end ScriptCore.Exact
