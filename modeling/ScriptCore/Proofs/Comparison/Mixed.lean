import ScriptCore.Comparison
import ScriptCore.Proofs.Exact.Rounding

/-!
# Comparing an integer with a float

Beyond the range of words the bound decides. Inside it the float has an integer part that is a
word: when that differs from the integer it decides, and when it does not the float's distance
to its own integer part does. So the integer and the float are ordered as the numbers they denote.
-/

namespace ScriptCore

namespace Exact

theorem cast_units (m : Nat) (e : Int) : (units m e : Int) = m * 2 ^ (e + 1074).toNat := by
  rw [units_eq_mul, Nat.cast_mul, Nat.cast_pow, Nat.cast_ofNat]

/-- An integer lies among the finite numbers, at its own count of units. -/
theorem position_ofInt (n : Int) : (ofInt n).position = some (0, n * 2 ^ 1074) := by
  have hexponent : ((0 : Int) + 1074).toNat = 1074 := rfl
  by_cases h : n < 0
  · have habs : (n.natAbs : Int) = -n := by omega
    rw [ofInt, decide_eq_true h, position, cast_units, hexponent, habs, neg_mul, neg_neg]
  · have habs : (n.natAbs : Int) = n := by omega
    rw [ofInt, decide_eq_false h, position, cast_units, hexponent, habs]

/-- Among the finite numbers the count of units decides. -/
theorem order_of_position {a b : Exact} {u v : Int} (ha : a.position = some (0, u))
    (hb : b.position = some (0, v)) : a.order b = some (compare u v) := by
  rw [order, ha, hb]
  rfl

/-- An infinity lies beyond the finite numbers. -/
theorem order_infinite_of_position {a : Exact} {u : Int} (ha : a.position = some (0, u))
    (negative : Bool) : a.order (.infinite negative) = some (if negative then .gt else .lt) := by
  rw [order, ha]
  cases negative <;> rfl

theorem float_le_iff_of_position {x y : Float} {u v : Int} (hx : (ofFloat x).position = some (0, u))
    (hy : (ofFloat y).position = some (0, v)) : x ≤ y ↔ u ≤ v := by
  rw [float_le_iff, order_of_position hx hy, Option.any_some, Int.isLE_compare]

theorem float_lt_iff_of_position {x y : Float} {u v : Int} (hx : (ofFloat x).position = some (0, u))
    (hy : (ofFloat y).position = some (0, v)) : x < y ↔ u < v := by
  rw [float_lt_iff, order_of_position hx hy, Option.some.injEq, Int.compare_eq_lt]

theorem order_ofInt (m n : Int) : (ofInt m).order (ofInt n) = some (compare m n) := by
  have hpos : (0 : Int) < 2 ^ 1074 := by positivity
  rw [order_of_position (position_ofInt m) (position_ofInt n)]
  rcases Int.lt_trichotomy m n with h | h | h
  · rw [Int.compare_eq_lt.mpr h, Int.compare_eq_lt.mpr (Int.mul_lt_mul_of_pos_right h hpos)]
  · rw [h, Int.compare_eq_eq.mpr rfl, Int.compare_eq_eq.mpr rfl]
  · rw [Int.compare_eq_gt.mpr h, Int.compare_eq_gt.mpr (Int.mul_lt_mul_of_pos_right h hpos)]

theorem order_swap (a b : Exact) : b.order a = (a.order b).map Ordering.swap := by
  rw [order, order]
  cases a.position with
  | none => cases b.position <;> rfl
  | some p =>
      cases b.position with
      | none => rfl
      | some q =>
          simp only [Option.map_some, Ordering.swap_then, Int.compare_swap]

end Exact

namespace Comparison

theorem cast_units_wordBound : (Exact.units Exact.fractionSize 11 : Int) = 2 ^ 63 * 2 ^ 1074 := by
  have hexponent : ((11 : Int) + 1074).toNat = 11 + 1074 := rfl
  have hsize : ((Exact.fractionSize : Nat) : Int) = 2 ^ 52 := rfl
  rw [Exact.cast_units, hexponent, pow_add, hsize, ← mul_assoc, ← pow_add]

theorem position_wordBound : (Exact.ofFloat wordBound).position = some (0, 2 ^ 63 * 2 ^ 1074) := by
  have hbound : Exact.ofFloat wordBound = .finite false Exact.fractionSize 11 := by decide +kernel
  rw [hbound, Exact.position, cast_units_wordBound]

theorem position_neg_wordBound :
    (Exact.ofFloat (-wordBound)).position = some (0, -(2 ^ 63 * 2 ^ 1074)) := by
  have hbound : Exact.ofFloat (-wordBound) = .finite true Exact.fractionSize 11 := by
    decide +kernel
  rw [hbound, Exact.position, cast_units_wordBound]

/-- One comparison of floats, made both ways, finds their order. -/
theorem floatOrder_eq (x y : Float) :
    floatOrder x y = (Exact.ofFloat x).order (Exact.ofFloat y) := by
  simp only [floatOrder, Exact.float_le_iff, Bool.decide_eq_true,
    Exact.order_swap (Exact.ofFloat x) (Exact.ofFloat y)]
  cases (Exact.ofFloat x).order (Exact.ofFloat y) with
  | none => rfl
  | some o => cases o <;> rfl

/-- Where an integer and a number lie whose integer part is `t`, when `t` is not the integer. -/
theorem compare_of_integerPart {i t u one : Int} (hone : 0 < one) (hlt : t * one - one < u)
    (hgt : u < t * one + one) :
    compare (i * one) u = (compare i t).then (compare (t * one) u) := by
  rcases Int.lt_trichotomy i t with h | rfl | h
  · have hmul : (i + 1) * one ≤ t * one := Int.mul_le_mul_of_nonneg_right h hone.le
    rw [Int.add_mul, Int.one_mul] at hmul
    rw [Int.compare_eq_lt.mpr h, Int.compare_eq_lt.mpr (by omega)]
    rfl
  · rw [Int.compare_eq_eq.mpr rfl]
    rfl
  · have hmul : (t + 1) * one ≤ i * one := Int.mul_le_mul_of_nonneg_right h hone.le
    rw [Int.add_mul, Int.one_mul] at hmul
    rw [Int.compare_eq_gt.mpr h, Int.compare_eq_gt.mpr (by omega)]
    rfl

/-- Rounding toward zero does not leave the range of words. -/
theorem integerPart_bounds {t u one : Int} (hone : 0 < one)
    (hpart : 0 ≤ t ∧ t * one ≤ u ∧ u < t * one + one ∨
      t ≤ 0 ∧ u ≤ t * one ∧ t * one - one < u)
    (hhigh : u < 2 ^ 63 * one) (hlow : -(2 ^ 63 * one) ≤ u) : -2 ^ 63 ≤ t ∧ t < 2 ^ 63 := by
  rcases hpart with ⟨hsign, hle, -⟩ | ⟨hsign, hle, -⟩
  · have hlt : t * one < 2 ^ 63 * one := by omega
    exact ⟨by omega, lt_of_mul_lt_mul_right hlt hone.le⟩
  · have hle' : -2 ^ 63 * one ≤ t * one := by
      rw [Int.neg_mul]
      omega
    exact ⟨le_of_mul_le_mul_right hle' hone, by omega⟩

theorem compare_int64 (m n : Int64) : compare m n = compare m.toInt n.toInt := by
  change compareOfLessAndEq m n = compareOfLessAndEq m.toInt n.toInt
  simp only [compareOfLessAndEq, Int64.lt_iff_toInt_lt, Int64.toInt_inj]

/-- Inside the range of words a float is compared by its integer part, then by what is left. -/
theorem intFloatOrder_of_position {i : Int64} {f : Float} {u t : Int}
    (hposition : (Exact.ofFloat f).position = some (0, u))
    (htruncate : (Exact.ofFloat (Exact.truncate f)).position = some (0, t * 2 ^ 1074))
    (hword : Exact.toInt64 (Exact.truncate f) = Int64.ofIntClamp t)
    (hpart : 0 ≤ t ∧ t * 2 ^ 1074 ≤ u ∧ u < t * 2 ^ 1074 + 2 ^ 1074 ∨
      t ≤ 0 ∧ u ≤ t * 2 ^ 1074 ∧ t * 2 ^ 1074 - 2 ^ 1074 < u) :
    intFloatOrder i f = some (compare (i.toInt * 2 ^ 1074) u) := by
  have hnan : ¬f.isNaN = true := by
    rw [Exact.isNaN_iff]
    intro h
    rw [h] at hposition
    contradiction
  have hone : (0 : Int) < 2 ^ 1074 := by positivity
  have hhigh := Exact.float_le_iff_of_position position_wordBound hposition
  have hlow := Exact.float_lt_iff_of_position hposition position_neg_wordBound
  have hbelow := Exact.float_lt_iff_of_position htruncate hposition
  have habove := Exact.float_lt_iff_of_position hposition htruncate
  generalize (2 : Int) ^ 1074 = one at *
  have hmin : -2 ^ 63 ≤ i.toInt := i.le_toInt
  have hmax : i.toInt < 2 ^ 63 := i.toInt_lt
  rw [intFloatOrder, if_neg hnan]
  by_cases h : 2 ^ 63 * one ≤ u
  · have hmul : i.toInt * one < 2 ^ 63 * one := Int.mul_lt_mul_of_pos_right hmax hone
    rw [if_pos (hhigh.mpr h), Int.compare_eq_lt.mpr (by omega)]
  rw [if_neg (mt hhigh.mp h)]
  by_cases h' : u < -(2 ^ 63 * one)
  · have hmul : -2 ^ 63 * one ≤ i.toInt * one := Int.mul_le_mul_of_nonneg_right hmin hone.le
    rw [Int.neg_mul] at hmul
    rw [if_pos (hlow.mpr h'), Int.compare_eq_gt.mpr (by omega)]
  rw [if_neg (mt hlow.mp h')]
  have hword' := integerPart_bounds hone hpart (Int.not_le.mp h) (Int.not_lt.mp h')
  have hclamp : (Int64.ofIntClamp t).toInt = t :=
    Int64.toInt_ofIntClamp hword'.1 (Int.le_sub_one_of_lt hword'.2)
  have hcompare : compare (i.toInt * one) u =
      (compare i.toInt t).then (compare (t * one) u) :=
    compare_of_integerPart hone (by omega) (by omega)
  have hfraction : (if Exact.truncate f < f then Ordering.lt
      else if f < Exact.truncate f then .gt else .eq) = compare (t * one) u := by
    simp only [hbelow, habove]
    exact (Int.compare_eq_ite_lt _ _).symm
  simp only [hword, compare_int64, hclamp, hfraction, hcompare]

/-- An integer is ordered against a float as the numbers they denote are. -/
theorem intFloatOrder_eq (i : Int64) (f : Float) :
    intFloatOrder i f = (Exact.ofInt i.toInt).order (Exact.ofFloat f) := by
  have hi := Exact.position_ofInt i.toInt
  cases hf : Exact.ofFloat f with
  | nan =>
      rw [intFloatOrder, if_pos ((Exact.isNaN_iff f).mpr hf), Exact.order, hi]
      rfl
  | infinite negative =>
      have hnan : ¬f.isNaN = true := by
        rw [Exact.isNaN_iff, hf]
        exact Exact.noConfusion
      rw [Exact.order_infinite_of_position hi, intFloatOrder, if_neg hnan]
      cases negative with
      | false =>
          have hle : wordBound ≤ f := by
            rw [Exact.float_le_iff, hf, Exact.order_infinite_of_position position_wordBound]
            rfl
          rw [if_pos hle]
          rfl
      | true =>
          have hnot : ¬wordBound ≤ f := by
            rw [Exact.float_le_iff, hf, Exact.order_infinite_of_position position_wordBound]
            decide
          have hlt : f < -wordBound := by
            rw [Exact.float_lt_iff, hf, Exact.order_swap (Exact.ofFloat (-wordBound)),
              Exact.order_infinite_of_position position_neg_wordBound]
            rfl
          rw [if_neg hnot, if_pos hlt]
          rfl
  | finite negative m e =>
      obtain ⟨u, t, hposition, htruncate, hword, hpart⟩ := Exact.exists_integerPart hf
      rw [← hf, Exact.order_of_position hi hposition]
      exact intFloatOrder_of_position hposition htruncate hword hpart

end Comparison

end ScriptCore
