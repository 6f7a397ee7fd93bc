import Mathlib.Algebra.Order.Field.Basic
import Mathlib.Algebra.Order.Field.Rat
import Mathlib.Data.Option.NAry
import Mathlib.Order.WithBot
import Mathlib.Tactic.NormNum
import Mathlib.Tactic.Positivity
import ScriptCore.Proofs.Comparison.Mixed

/-!
# Numbers compare as what they denote

A float denotes what IEEE 754 reads off its bits: a rational number, an infinity or no
number at all. An integer denotes itself. The exact values are counts of whole units, ordered
as the rational numbers are, and each comparison of numbers finds the order of the exact
values. So it orders all numbers, integers and floats mixed, as one line.
-/

namespace ScriptCore

/-- The rational numbers with an end on either side. -/
abbrev ExtendedRat := WithBot (WithTop ℚ)

/-- A rational number as a point of the extended line. -/
def ExtendedRat.ofRat (q : ℚ) : ExtendedRat :=
  ((q : WithTop ℚ) : ExtendedRat)

/-- What 64 bits denote as a binary float: one bit of sign, 11 of exponent and 52 of
fraction. The largest exponent is kept for infinities and for what is no number; the
smallest has no implicit leading one. -/
def binary64 (bits : BitVec 64) : Option ExtendedRat :=
  let sign : ℚ := if bits.msb then -1 else 1
  let exponent := (bits.extractLsb' 52 11).toNat
  let fraction : ℚ := (bits.extractLsb' 0 52).toNat / 2 ^ 52
  if exponent = 2047 then
    if fraction = 0 then some (if bits.msb then ⊥ else ⊤) else none
  else if exponent = 0 then some (.ofRat (sign * fraction * 2 ^ (-1022 : ℤ)))
  else some (.ofRat (sign * (1 + fraction) * 2 ^ ((exponent : ℤ) - 1023)))

/-- The values that have an order as numbers. -/
inductive Number where
  | int (n : Int64)
  | float (x : Float)

namespace Number

def toValue : Number → Value
  | .int n => .int n
  | .float x => .float x

def toExact : Number → Exact
  | .int n => .ofInt n.toInt
  | .float x => .ofFloat x

/-- The number denoted, or `none` for what is not a number. -/
def denoted : Number → Option ExtendedRat
  | .int n => some (.ofRat n.toInt)
  | .float x => binary64 x.toBits.toBitVec

end Number

namespace ExtendedRat

theorem strictMono_ofRat : StrictMono ofRat :=
  WithBot.coe_strictMono.comp WithTop.coe_strictMono

theorem cmp_ofRat (p q : ℚ) : cmp (ofRat p) (ofRat q) = cmp p q :=
  strictMono_ofRat.cmp_map_eq p q

theorem bot_lt_ofRat (q : ℚ) : ⊥ < ofRat q :=
  WithBot.bot_lt_coe _

theorem ofRat_lt_top (q : ℚ) : ofRat q < ⊤ :=
  WithBot.coe_lt_coe.mpr (WithTop.coe_lt_top q)

end ExtendedRat

namespace Exact

/-- A whole number of units, as all floats and integers are. -/
def Whole : Exact → Prop
  | .finite _ _ e => -1074 ≤ e
  | _ => True

def signed (negative : Bool) (q : ℚ) : ℚ :=
  if negative then -q else q

/-- The point that a denotation stands for. -/
def point : Exact → Option ExtendedRat
  | .nan => none
  | .infinite negative => some (if negative then ⊥ else ⊤)
  | .finite negative m e => some (.ofRat (signed negative (m * 2 ^ e)))

theorem cast_units_eq_mul (m : Nat) {e : Int} (he : -1074 ≤ e) :
    ((units m e : Int) : ℚ) = m * 2 ^ e * 2 ^ (1074 : ℤ) := by
  have hexponent : (((e + 1074).toNat : Nat) : ℤ) = e + 1074 := Int.toNat_of_nonneg (by omega)
  calc
    ((units m e : Int) : ℚ) = m * 2 ^ (e + 1074).toNat := by
      rw [cast_units, Int.cast_mul, Int.cast_pow, Int.cast_natCast, Int.cast_ofNat]
    _ = m * 2 ^ (e + 1074) := by rw [← zpow_natCast, hexponent]
    _ = m * 2 ^ e * 2 ^ (1074 : ℤ) := by rw [zpow_add₀ two_ne_zero, mul_assoc]

/-- A finite denotation lies at its rational number, counted in units. -/
theorem exists_position_finite (negative : Bool) (m : Nat) {e : Int} (he : -1074 ≤ e) :
    ∃ u : Int, (finite negative m e).position = some (0, u) ∧
      (u : ℚ) = signed negative (m * 2 ^ e) * 2 ^ (1074 : ℤ) := by
  cases negative with
  | false => exact ⟨units m e, rfl, cast_units_eq_mul m he⟩
  | true =>
      refine ⟨-(units m e : Int), rfl, ?_⟩
      rw [Int.cast_neg, cast_units_eq_mul m he, ← neg_mul]
      rfl

theorem order_finite (s t : Bool) (m n : Nat) {e f : Int} (he : -1074 ≤ e) (hf : -1074 ≤ f) :
    (finite s m e).order (finite t n f) =
      some (cmp (signed s (m * 2 ^ e)) (signed t (n * 2 ^ f))) := by
  obtain ⟨u, hu, hucast⟩ := exists_position_finite s m he
  obtain ⟨v, hv, hvcast⟩ := exists_position_finite t n hf
  have hscale : (0 : ℚ) < 2 ^ (1074 : ℤ) := zpow_pos two_pos _
  have hcmp : cmp (signed s (m * 2 ^ e)) (signed t (n * 2 ^ f)) = compare u v :=
    calc
      cmp (signed s (m * 2 ^ e)) (signed t (n * 2 ^ f))
          = cmp (u : ℚ) (v : ℚ) := by rw [hucast, hvcast, cmp_mul_pos_right hscale]
      _ = cmp u v := Int.cast_strictMono.cmp_map_eq u v
      _ = compare u v := cmp_eq_compare u v
  rw [order, hu, hv, hcmp]
  rfl

/-- Denotations are ordered as the points they stand for. -/
theorem order_eq_cmp {a b : Exact} (ha : a.Whole) (hb : b.Whole) :
    a.order b = Option.map₂ cmp a.point b.point := by
  -- An infinity lies on the same side of every finite number, whatever its sign.
  cases a with
  | nan => rfl
  | infinite s =>
      cases b with
      | nan => cases s <;> rfl
      | infinite t => cases s <;> cases t <;> rfl
      | finite t n f =>
          have hbot := (cmp_eq_lt_iff _ _).mpr (ExtendedRat.bot_lt_ofRat (signed t (n * 2 ^ f)))
          have htop := (cmp_eq_gt_iff _ _).mpr (ExtendedRat.ofRat_lt_top (signed t (n * 2 ^ f)))
          cases s with
          | false => cases t <;> exact congrArg some htop.symm
          | true => cases t <;> exact congrArg some hbot.symm
  | finite s m e =>
      cases b with
      | nan => cases s <;> rfl
      | infinite t =>
          have hbot := (cmp_eq_gt_iff _ _).mpr (ExtendedRat.bot_lt_ofRat (signed s (m * 2 ^ e)))
          have htop := (cmp_eq_lt_iff _ _).mpr (ExtendedRat.ofRat_lt_top (signed s (m * 2 ^ e)))
          cases t with
          | false => cases s <;> exact congrArg some htop.symm
          | true => cases s <;> exact congrArg some hbot.symm
      | finite t n f =>
          rw [order_finite s t m n ha hb, ← ExtendedRat.cmp_ofRat]
          rfl

theorem whole_ofInt (n : Int) : (ofInt n).Whole := by
  change (-1074 : Int) ≤ 0
  omega

theorem point_ofInt (n : Int) : (ofInt n).point = some (.ofRat n) := by
  have hsigned : signed (decide (n < 0)) (n.natAbs * 2 ^ (0 : ℤ)) = n := by
    rw [zpow_zero, mul_one, signed]
    by_cases h : n < 0
    · have habs : ((n.natAbs : ℤ) : ℚ) = ((-n : ℤ) : ℚ) := congrArg _ (by omega)
      rw [if_pos (decide_eq_true h), ← Int.cast_natCast, habs, Int.cast_neg, neg_neg]
    · have habs : ((n.natAbs : ℤ) : ℚ) = (n : ℚ) := congrArg _ (by omega)
      rw [if_neg (by simpa using h), ← Int.cast_natCast, habs]
  rw [ofInt, point, hsigned]

theorem whole_ofFloat (x : Float) : (ofFloat x).Whole := by
  have hcanonical := canonical_ofFloat x
  cases hx : ofFloat x with
  | finite negative m e =>
      rw [hx] at hcanonical
      exact hcanonical.2.1
  | _ => exact trivial

/-- The fraction field counts steps of `2 ^ (-52)`. -/
theorem signed_mul_zpow (negative : Bool) (n : Nat) (k : ℤ) :
    signed negative (n * 2 ^ (k - 52)) =
      (if negative then -1 else 1) * ((n : ℚ) / 2 ^ 52) * 2 ^ k := by
  have hpow : (n : ℚ) * 2 ^ (k - 52) = (n : ℚ) / 2 ^ 52 * 2 ^ k := by
    rw [zpow_sub₀ two_ne_zero, mul_div_assoc', div_mul_eq_mul_div]
    rfl
  rw [hpow, signed, mul_assoc]
  cases negative with
  | false => exact (one_mul _).symm
  | true => exact (neg_one_mul _).symm

theorem cast_fractionSize_add (n : Nat) :
    ((fractionSize + n : Nat) : ℚ) / 2 ^ 52 = 1 + (n : ℚ) / 2 ^ 52 := by
  have hsize : (fractionSize : ℚ) = 2 ^ 52 := by norm_num [fractionSize]
  rw [Nat.cast_add, hsize, add_div, div_self (by positivity)]

/-- The sign, exponent and fraction taken from the bits are those of the format. -/
theorem point_ofFloat (x : Float) : (ofFloat x).point = binary64 x.toBits.toBitVec := by
  have hsign : decide (signBit ≤ x.toBits.toNat) = x.toBits.toBitVec.msb :=
    (BitVec.msb_eq_decide x.toBits.toBitVec).symm
  have hfield : x.toBits.toNat / fractionSize % 2048 =
      (x.toBits.toBitVec.extractLsb' 52 11).toNat := by
    rw [BitVec.extractLsb'_toNat, Nat.shiftRight_eq_div_pow]
    rfl
  have hfraction : x.toBits.toNat % fractionSize =
      (x.toBits.toBitVec.extractLsb' 0 52).toNat := by
    rw [BitVec.extractLsb'_toNat]
    rfl
  simp only [ofFloat, ofBits, hsign, hfield, hfraction, binary64]
  generalize (x.toBits.toBitVec.extractLsb' 52 11).toNat = field
  generalize (x.toBits.toBitVec.extractLsb' 0 52).toNat = fraction
  have hzero : (fraction : ℚ) / 2 ^ 52 = 0 ↔ fraction = 0 := by
    rw [div_eq_zero_iff, or_iff_left (by positivity), Nat.cast_eq_zero]
  simp only [hzero]
  split
  · split
    · rfl
    · rfl
  · split
    · have hexponent : (-1074 : ℤ) = -1022 - 52 := rfl
      rw [point, hexponent, signed_mul_zpow]
    · have hexponent : (field : ℤ) - 1075 = field - 1023 - 52 := by omega
      rw [point, hexponent, signed_mul_zpow, cast_fractionSize_add]

end Exact

/-- Along a chain that never descends, the first strict step decides. -/
theorem cmp_then {α : Type} [LinearOrder α] {x y z : α} (hxy : (cmp x y).isLE)
    (hyz : (cmp y z).isLE) : cmp x z = (cmp x y).then (cmp y z) := by
  rcases lt_trichotomy x y with h | h | h
  · have hxz : x < z := by
      apply lt_of_lt_of_le h
      by_contra hzy
      rw [(cmp_eq_gt_iff y z).mpr (not_le.mp hzy)] at hyz
      contradiction
    rw [(cmp_eq_lt_iff x y).mpr h, (cmp_eq_lt_iff x z).mpr hxz]
    rfl
  · rw [h, cmp_self_eq_eq]
    rfl
  · rw [(cmp_eq_gt_iff x y).mpr h] at hxy
    contradiction

namespace Number

theorem whole_toExact (a : Number) : a.toExact.Whole := by
  cases a with
  | int n => exact Exact.whole_ofInt n.toInt
  | float x => exact Exact.whole_ofFloat x

theorem point_toExact (a : Number) : a.toExact.point = a.denoted := by
  cases a with
  | int n => exact Exact.point_ofInt n.toInt
  | float x => exact Exact.point_ofFloat x

/-- Whatever the types of two numbers, they are ordered as their exact values. -/
theorem order_toValue (a b : Number) :
    Comparison.order a.toValue b.toValue = .ok (a.toExact.order b.toExact) := by
  cases a with
  | int m =>
      cases b with
      | int n =>
          rw [toExact, toExact, Exact.order_ofInt, ← Comparison.compare_int64]
          rfl
      | float y => exact congrArg Except.ok (Comparison.intFloatOrder_eq m y)
  | float x =>
      cases b with
      | int n =>
          rw [toExact, toExact, Exact.order_swap, ← Comparison.intFloatOrder_eq]
          rfl
      | float y => exact congrArg Except.ok (Comparison.floatOrder_eq x y)

/-- Equality is the order in which neither is first. -/
theorem equals_toValue (a b : Number) :
    Comparison.equals a.toValue b.toValue =
      .ok (a.toExact.order b.toExact == some .eq) := by
  cases a with
  | int m =>
      cases b with
      | int n =>
          have hbeq : (m == n) = ((Exact.ofInt m.toInt).order (Exact.ofInt n.toInt) == some .eq) := by
            rw [Bool.eq_iff_iff, Exact.order_ofInt, beq_iff_eq, beq_iff_eq, Option.some.injEq,
              Int.compare_eq_eq, Int64.toInt_inj]
          exact congrArg Except.ok hbeq
      | float y =>
          exact congrArg (fun o => Except.ok (o == some .eq)) (Comparison.intFloatOrder_eq m y)
  | float x =>
      cases b with
      | int n =>
          have hbeq : (Comparison.intFloatOrder n x == some .eq) =
              ((Exact.ofFloat x).order (Exact.ofInt n.toInt) == some .eq) := by
            rw [Exact.order_swap (Exact.ofInt n.toInt), ← Comparison.intFloatOrder_eq]
            rcases Comparison.intFloatOrder n x with _ | o
            · rfl
            · cases o <;> rfl
          exact congrArg Except.ok hbeq
      | float y => exact congrArg Except.ok (Exact.float_beq_eq x y)

/-- Numbers are ordered as the points they denote. -/
theorem order_eq (a b : Number) :
    Comparison.order a.toValue b.toValue = .ok (Option.map₂ cmp a.denoted b.denoted) := by
  rw [order_toValue, Exact.order_eq_cmp a.whole_toExact b.whole_toExact, point_toExact,
    point_toExact]

theorem equals_eq (a b : Number) :
    Comparison.equals a.toValue b.toValue =
      .ok (Option.map₂ cmp a.denoted b.denoted == some .eq) := by
  rw [equals_toValue, Exact.order_eq_cmp a.whole_toExact b.whole_toExact, point_toExact,
    point_toExact]

theorem order_eq_some_iff {a b : Number} {o : Ordering} :
    Comparison.order a.toValue b.toValue = .ok (some o) ↔
      ∃ x y, a.denoted = some x ∧ b.denoted = some y ∧ cmp x y = o := by
  rw [order_eq, Except.ok.injEq, Option.map₂_eq_some_iff]
  rfl

theorem equals_iff_order (a b : Number) :
    Comparison.equals a.toValue b.toValue = .ok true ↔
      Comparison.order a.toValue b.toValue = .ok (some .eq) := by
  rw [equals_eq, order_eq, Except.ok.injEq, Except.ok.injEq, beq_iff_eq]

/-- Two numbers are equal values exactly when they denote the same point. -/
theorem equals_iff (a b : Number) :
    Comparison.equals a.toValue b.toValue = .ok true ↔
      ∃ x, a.denoted = some x ∧ b.denoted = some x := by
  rw [equals_iff_order, order_eq_some_iff]
  constructor
  · rintro ⟨x, y, hx, hy, heq⟩
    obtain rfl := (cmp_eq_eq_iff x y).mp heq
    exact ⟨x, hx, hy⟩
  · rintro ⟨x, hx, hy⟩
    exact ⟨x, x, hx, hy, cmp_self_eq_eq x⟩

theorem order_swap {a b : Number} {o : Ordering}
    (h : Comparison.order a.toValue b.toValue = .ok (some o)) :
    Comparison.order b.toValue a.toValue = .ok (some o.swap) := by
  obtain ⟨x, y, hx, hy, rfl⟩ := order_eq_some_iff.mp h
  exact order_eq_some_iff.mpr ⟨y, x, hy, hx, (cmp_swap x y).symm⟩

theorem order_trans {a b c : Number} {o p : Ordering}
    (hab : Comparison.order a.toValue b.toValue = .ok (some o))
    (hbc : Comparison.order b.toValue c.toValue = .ok (some p)) (ho : o.isLE) (hp : p.isLE) :
    Comparison.order a.toValue c.toValue = .ok (some (o.then p)) := by
  obtain ⟨x, y, hx, hy, rfl⟩ := order_eq_some_iff.mp hab
  obtain ⟨y', z, hy', hz, rfl⟩ := order_eq_some_iff.mp hbc
  obtain rfl : y = y' := Option.some.inj (hy.symm.trans hy')
  exact order_eq_some_iff.mpr ⟨x, z, hx, hz, cmp_then ho hp⟩

theorem equals_equivalence : Equivalence fun a b : { a : Number // a.denoted ≠ none } =>
    Comparison.equals a.1.toValue b.1.toValue = .ok true := by
  refine ⟨?_, ?_, ?_⟩
  · rintro ⟨a, ha⟩
    obtain ⟨x, hx⟩ := Option.ne_none_iff_exists'.mp ha
    exact (equals_iff a a).mpr ⟨x, hx, hx⟩
  · rintro ⟨a, _⟩ ⟨b, _⟩ h
    obtain ⟨x, hx, hy⟩ := (equals_iff a b).mp h
    exact (equals_iff b a).mpr ⟨x, hy, hx⟩
  · rintro ⟨a, _⟩ ⟨b, _⟩ ⟨c, _⟩ hab hbc
    obtain ⟨x, ha, hb⟩ := (equals_iff a b).mp hab
    obtain ⟨y, hb', hc⟩ := (equals_iff b c).mp hbc
    obtain rfl : x = y := Option.some.inj (hb.symm.trans hb')
    exact (equals_iff a c).mpr ⟨x, ha, hc⟩

end Number

/-- An order and an equality of values that compare numbers as what they denote. -/
structure ComparesExactly (order : Value → Value → Except ScriptError (Option Ordering))
    (equals : Value → Value → Except ScriptError Bool) : Prop where
  /-- There is no order only where one side is not a number. -/
  unordered_iff : ∀ a b : Number,
    order a.toValue b.toValue = .ok none ↔ a.denoted = none ∨ b.denoted = none
  /-- Else it is the order of the points denoted. -/
  ordered : ∀ (a b : Number) (x y : ExtendedRat), a.denoted = some x → b.denoted = some y →
    order a.toValue b.toValue = .ok (some (cmp x y))
  equal_iff : ∀ a b : Number,
    equals a.toValue b.toValue = .ok true ↔ order a.toValue b.toValue = .ok (some .eq)
  swap : ∀ (a b : Number) (o : Ordering), order a.toValue b.toValue = .ok (some o) →
    order b.toValue a.toValue = .ok (some o.swap)
  trans : ∀ (a b c : Number) (o p : Ordering), order a.toValue b.toValue = .ok (some o) →
    order b.toValue c.toValue = .ok (some p) → o.isLE → p.isLE →
    order a.toValue c.toValue = .ok (some (o.then p))
  equivalence : Equivalence fun a b : { a : Number // a.denoted ≠ none } =>
    equals a.1.toValue b.1.toValue = .ok true

/-- Integers and floats are compared without rounding, and so in one total order. -/
theorem numbers_compare_exactly : ComparesExactly Comparison.order Comparison.equals where
  unordered_iff := by
    intro a b
    rw [Number.order_eq, Except.ok.injEq, Option.map₂_eq_none_iff]
  ordered := by
    intro a b x y hx hy
    exact Number.order_eq_some_iff.mpr ⟨x, y, hx, hy, rfl⟩
  equal_iff := Number.equals_iff_order
  swap := fun _ _ _ h => Number.order_swap h
  trans := fun _ _ _ _ _ hab hbc ho hp => Number.order_trans hab hbc ho hp
  equivalence := Number.equals_equivalence

-- The integer next to `2 ^ 53` rounds to the float `2 ^ 53`, and is above it all the same.
example : Comparison.order (.int 9007199254740993) (.float (.ofBits 0x4340000000000000)) =
    .ok (some .gt) := by
  decide +kernel

end ScriptCore
