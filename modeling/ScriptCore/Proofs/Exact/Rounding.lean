import ScriptCore.Proofs.Exact.Comparisons

/-!
# The integer part of a float

A count of units with at most 53 significant bits is the denotation of a float. The integer part
of a float has no more significant bits than the float, so nothing is lost when it is made a
float again, and the word made of it is the integer part itself.
-/

namespace ScriptCore.Exact

open Float.Model (Format UnpackedFloat)
open Float.Model.UnpackedFloat

section Packing

theorem toNat_packComponents (s : Sign) (exponent : BitVec 11) (mantissa : BitVec 52) :
    (packComponents Format.binary64 s exponent mantissa).toNat =
      (if isNegative s then signBit else 0) + exponent.toNat * fractionSize + mantissa.toNat := by
  have happend : (s.toBitVec ++ exponent).toNat =
      (if isNegative s then 2048 else 0) + exponent.toNat := by
    rw [BitVec.toNat_append, ← Nat.shiftLeft_add_eq_or_of_lt exponent.isLt]
    cases s <;> rfl
  have hmantissa : mantissa.toNat < 2 ^ 52 := mantissa.isLt
  change (s.toBitVec ++ exponent ++ mantissa).toNat = _
  rw [BitVec.toNat_append, ← Nat.shiftLeft_add_eq_or_of_lt mantissa.isLt, Nat.shiftLeft_eq,
    happend]
  simp only [signBit, fractionSize]
  split <;> omega

/-- The parts of a word that is put together from its fields. -/
theorem ofBits_add (s : Bool) {field fraction : Nat} (hfield : field < 2047)
    (hfraction : fraction < fractionSize) :
    ofBits ((if s then signBit else 0) + field * fractionSize + fraction) =
      if field = 0 then .finite s fraction (-1074)
      else .finite s (fractionSize + fraction) ((field : Int) - 1075) := by
  have hdiv : ((if s then signBit else 0) + field * fractionSize + fraction) / fractionSize % 2048 =
      field := by
    simp only [signBit, fractionSize] at hfraction ⊢
    split <;> omega
  have hmod : ((if s then signBit else 0) + field * fractionSize + fraction) % fractionSize =
      fraction := by
    simp only [signBit, fractionSize] at hfraction ⊢
    split <;> omega
  have hsign : decide (signBit ≤ (if s then signBit else 0) + field * fractionSize + fraction) =
      s := by
    simp only [signBit, fractionSize] at hfraction ⊢
    cases s <;> simp <;> omega
  simp only [ofBits, hdiv, hmod, hsign]
  rw [if_neg (by omega)]

/-- Packing keeps what is denoted. -/
theorem ofBits_pack {u : UnpackedFloat} (h : (ofUnpacked u).Canonical) :
    ofBits (pack Format.binary64 u).toNat = ofUnpacked u := by
  cases u with
  | notANumber => decide +kernel
  | infinity s => cases s <;> decide +kernel
  | zero s => cases s <;> decide +kernel
  | finite s m e hm =>
      obtain ⟨hlt, hleast, hmost, hfull⟩ := h
      have hbiased : (e + (Format.binary64.exponentBias : Int) +
          (Format.binary64.mantissaBitsWithoutImplicit : Int)).toNat = (e + 1075).toNat := by
        change (e + 1023 + 52).toNat = _
        omega
      have hlog : m.log2 + 1 = Format.binary64.mantissaBits ↔ fractionSize ≤ m := by
        change m.log2 + 1 = 53 ↔ 2 ^ 52 ≤ m
        have hlarge := Nat.le_log2 hm.ne' (k := 52)
        have hsmall := Nat.log2_lt hm.ne' (k := 53)
        have hlt' : m < 2 ^ 53 := hlt
        omega
      simp only [pack, hbiased]
      rw [if_neg (by change ¬ (2048 ≤ _); omega)]
      by_cases hnormal : fractionSize ≤ m
      · have hexponent : (e + 1075).toNat % 2 ^ 11 = (e + 1075).toNat := Nat.mod_eq_of_lt (by omega)
        have hmantissa : m % 2 ^ 52 = m - fractionSize := by
          simp only [fractionSize] at hlt hnormal ⊢
          omega
        rw [if_pos (hlog.mpr hnormal), toNat_packComponents, BitVec.toNat_ofNat,
          BitVec.toNat_ofNat, hexponent, hmantissa, ofBits_add _ (by omega) (by omega),
          if_neg (by omega), Nat.add_sub_cancel' hnormal, Int.toNat_of_nonneg (by omega),
          Int.add_sub_cancel]
        rfl
      · have hmantissa : m % 2 ^ 52 = m := Nat.mod_eq_of_lt (Nat.not_le.mp hnormal)
        rw [if_neg (mt hlog.mp hnormal), toNat_packComponents, BitVec.toNat_zero,
          BitVec.toNat_ofNat, hmantissa, ofBits_add _ (by omega) (Nat.not_le.mp hnormal), if_pos rfl,
          ofUnpacked, hfull.resolve_left hnormal]

theorem ofFloat_ofBits (w : UInt64) : ofFloat (Float.ofBits w) = ofBits w.toNat := by
  have hcanonical : (ofUnpacked (unpack Format.binary64 w.toBitVec)).Canonical := by
    rw [ofUnpacked_unpack]
    exact canonical_ofBits _
  exact (ofBits_pack hcanonical).trans (ofUnpacked_unpack w.toBitVec)

end Packing

theorem ofFloat_word (s : Bool) {field fraction : Nat} (hfield : field < 2047)
    (hfraction : fraction < fractionSize) :
    ofFloat (Float.ofBits (UInt64.ofNat
        ((if s then signBit else 0) + (field * fractionSize + fraction)))) =
      if field = 0 then .finite s fraction (-1074)
      else .finite s (fractionSize + fraction) ((field : Int) - 1075) := by
  have hlt : (if s then signBit else 0) + (field * fractionSize + fraction) < UInt64.size := by
    simp only [signBit, fractionSize, UInt64.size] at hfraction ⊢
    split <;> omega
  rw [ofFloat_ofBits, UInt64.toNat_ofNat_of_lt' hlt, ← Nat.add_assoc,
    ofBits_add s hfield hfraction]

/-- A count below `2 ^ 53` is its own mantissa, with the smallest exponent. -/
theorem ofFloat_floatOfUnits_of_lt (s : Bool) {count : Nat} (h : count < 2 * fractionSize) :
    ofFloat (floatOfUnits s count) = .finite s count (-1074) := by
  have hcount := Nat.div_add_mod' count fractionSize
  have hfield : count / fractionSize < 2 := Nat.div_lt_of_lt_mul (by omega)
  have hfraction : count % fractionSize < fractionSize := Nat.mod_lt _ (by decide)
  have hword := ofFloat_word s (by omega : count / fractionSize < 2047) hfraction
  rw [hcount] at hword
  rw [floatOfUnits, if_pos h, hword]
  rcases Nat.lt_succ_iff_lt_or_eq.mp hfield with hzero | hone
  · rw [Nat.lt_one_iff.mp hzero, Nat.zero_mul, Nat.zero_add] at hcount
    rw [if_pos (Nat.lt_one_iff.mp hzero), hcount]
  · rw [hone, Nat.one_mul] at hcount
    rw [hone, if_neg (by decide), hcount]
    rfl

/-- A larger count has its first 53 bits for a mantissa. -/
theorem ofFloat_floatOfUnits_of_le (s : Bool) {count : Nat} (h : 2 * fractionSize ≤ count)
    (hlog : count.log2 ≤ 2097) :
    ofFloat (floatOfUnits s count) =
      .finite s (count >>> (count.log2 - 52)) ((count.log2 - 52 : Nat) - 1074) := by
  have hne : count ≠ 0 := by
    simp only [fractionSize] at h
    omega
  have hle : 53 ≤ count.log2 := (Nat.le_log2 hne).mpr h
  -- The mantissa is full because the shift leaves the bits from the first one on.
  have hmantissa : count >>> (count.log2 - 52) = count / 2 ^ (count.log2 - 52) :=
    Nat.shiftRight_eq_div_pow _ _
  have hfull : fractionSize ≤ count >>> (count.log2 - 52) := by
    rw [hmantissa, Nat.le_div_iff_mul_le (by positivity)]
    calc
      fractionSize * 2 ^ (count.log2 - 52) = 2 ^ (52 + (count.log2 - 52)) := (pow_add 2 52 _).symm
      _ = 2 ^ count.log2 := by congr 1; omega
      _ ≤ count := Nat.log2_self_le hne
  have hlt : count >>> (count.log2 - 52) < 2 * fractionSize := by
    rw [hmantissa, Nat.div_lt_iff_lt_mul (by positivity)]
    calc
      count < 2 ^ (count.log2 + 1) := Nat.lt_log2_self
      _ = 2 ^ (53 + (count.log2 - 52)) := by congr 1; omega
      _ = 2 * fractionSize * 2 ^ (count.log2 - 52) := pow_add 2 53 _
  have hfield : count.log2 - 52 + 1 < 2047 := by omega
  have hfraction : count >>> (count.log2 - 52) - fractionSize < fractionSize := by omega
  have hword := ofFloat_word s hfield hfraction
  rw [floatOfUnits, if_neg (Nat.not_lt.mpr h), hword, if_neg (by omega),
    Nat.add_sub_cancel' hfull]
  congr 1
  omega

/-- A count with at most 53 significant bits, inside the range of floats, is denoted by a
float. -/
theorem exists_ofFloat_floatOfUnits (s : Bool) {q k : Nat} (hq : q < 2 * fractionSize)
    (hk : k ≤ 2045) :
    ∃ m e, ofFloat (floatOfUnits s (q * 2 ^ k)) = .finite s m e ∧ units m e = q * 2 ^ k := by
  by_cases hsmall : q * 2 ^ k < 2 * fractionSize
  · exact ⟨_, _, ofFloat_floatOfUnits_of_lt s hsmall, rfl⟩
  · have hlarge := Nat.not_lt.mp hsmall
    have hne : q * 2 ^ k ≠ 0 := by
      simp only [fractionSize] at hlarge
      omega
    have hlog : (q * 2 ^ k).log2 < 53 + k := by
      rw [Nat.log2_lt hne, pow_add]
      exact Nat.mul_lt_mul_of_pos_right hq (by positivity)
    have hdvd : 2 ^ ((q * 2 ^ k).log2 - 52) ∣ q * 2 ^ k :=
      Dvd.dvd.mul_left (pow_dvd_pow 2 (by omega)) q
    refine ⟨_, _, ofFloat_floatOfUnits_of_le s hlarge (by omega), ?_⟩
    rw [units_eq_mul, Nat.shiftRight_eq_div_pow, Int.sub_add_cancel, Int.toNat_natCast,
      Nat.div_mul_cancel hdvd]

section IntegerPart

variable {x : Float} {s : Bool} {m : Nat} {e : Int}

theorem whole_eq_div (m : Nat) (e : Int) : whole m e = units m e / 2 ^ 1074 := by
  have hdiv (n : Nat) : units m e >>> n = units m e / 2 ^ n := Nat.shiftRight_eq_div_pow _ _
  rw [whole, hdiv]

/-- The integer part of a float has at most 53 significant bits. -/
theorem exists_whole_eq (h : (finite s m e).Canonical) :
    ∃ q k : Nat, whole m e * 2 ^ 1074 = q * 2 ^ k ∧ q < 2 * fractionSize ∧ k ≤ 2045 := by
  obtain ⟨hlt, hleast, hmost, -⟩ := h
  by_cases he : 0 ≤ e
  · have hexponent : (e + 1074).toNat = e.toNat + 1074 := by omega
    refine ⟨m, e.toNat + 1074, ?_, hlt, by omega⟩
    rw [whole_eq_div, units_eq_mul, hexponent, pow_add, ← Nat.mul_assoc,
      Nat.mul_div_cancel _ (Nat.two_pow_pos _)]
  · refine ⟨whole m e, 1074, rfl, ?_, by omega⟩
    have hexponent : (e + 1074).toNat ≤ 1074 := by omega
    have hunits : units m e ≤ m * 2 ^ 1074 := by
      rw [units_eq_mul]
      gcongr
      exact one_le_two
    calc
      whole m e = units m e / 2 ^ 1074 := whole_eq_div m e
      _ ≤ m * 2 ^ 1074 / 2 ^ 1074 := Nat.div_le_div_right hunits
      _ = m := by rw [Nat.mul_div_cancel _ (Nat.two_pow_pos _)]
      _ < 2 * fractionSize := hlt

/-- The float that is made of an integer part denotes it. -/
theorem exists_ofFloat_truncate (h : ofFloat x = .finite s m e) :
    ∃ m' e', ofFloat (truncate x) = .finite s m' e' ∧ units m' e' = whole m e * 2 ^ 1074 := by
  have hcanonical : (finite s m e).Canonical := h ▸ canonical_ofFloat x
  obtain ⟨q, k, hwhole, hq, hk⟩ := exists_whole_eq hcanonical
  obtain ⟨m', e', hfloat, hunits⟩ := exists_ofFloat_floatOfUnits s hq hk
  refine ⟨m', e', ?_, hunits.trans hwhole.symm⟩
  rw [truncate, h, ← hfloat, ← hwhole, ← Nat.shiftLeft_eq]

/-- Cutting off the fractional part once is enough. -/
theorem toInt64_truncate (h : ofFloat x = .finite s m e) : toInt64 (truncate x) = toInt64 x := by
  obtain ⟨m', e', hfloat, hunits⟩ := exists_ofFloat_truncate h
  have hwhole : whole m' e' = whole m e := by
    rw [whole_eq_div, hunits, Nat.mul_div_cancel _ (Nat.two_pow_pos 1074)]
  rw [toInt64, toInt64, h, hfloat]
  cases s <;> simp only [hwhole]

/-- The integer part of a finite float, as a float and as a word: it is less than one away,
toward zero. Distances are counted in units. -/
theorem exists_integerPart (h : ofFloat x = .finite s m e) :
    ∃ u t : Int, (ofFloat x).position = some (0, u) ∧
      (ofFloat (truncate x)).position = some (0, t * 2 ^ 1074) ∧
      toInt64 (truncate x) = Int64.ofIntClamp t ∧
      (0 ≤ t ∧ t * 2 ^ 1074 ≤ u ∧ u < t * 2 ^ 1074 + 2 ^ 1074 ∨
        t ≤ 0 ∧ u ≤ t * 2 ^ 1074 ∧ t * 2 ^ 1074 - 2 ^ 1074 < u) := by
  obtain ⟨m', e', hfloat, hunits⟩ := exists_ofFloat_truncate h
  have hcast (n : Nat) : ((n * 2 ^ 1074 : Nat) : Int) = n * 2 ^ 1074 := by
    rw [Nat.cast_mul, Nat.cast_pow, Nat.cast_ofNat]
  have hone : ((2 ^ 1074 : Nat) : Int) = 2 ^ 1074 := by
    rw [Nat.cast_pow, Nat.cast_ofNat]
  have hle : (whole m e : Int) * 2 ^ 1074 ≤ units m e := by
    rw [← hcast, whole_eq_div]
    exact Int.ofNat_le.mpr (Nat.div_mul_le_self _ _)
  have hlt : (units m e : Int) < whole m e * 2 ^ 1074 + 2 ^ 1074 := by
    rw [← hcast, ← hone, ← Nat.cast_add, whole_eq_div]
    exact Int.ofNat_lt.mpr (Nat.lt_div_mul_add (pow_pos two_pos _))
  rw [toInt64_truncate h, toInt64, h, hfloat]
  cases s with
  | false =>
      refine ⟨units m e, whole m e, rfl, ?_, rfl, .inl ⟨Int.natCast_nonneg _, hle, hlt⟩⟩
      rw [position, hunits, hcast]
  | true =>
      refine ⟨-(units m e : Int), -(whole m e : Int), rfl, ?_, rfl, .inr ⟨by omega, ?_, ?_⟩⟩
      · rw [position, hunits, hcast, neg_mul]
      · rw [neg_mul]
        exact neg_le_neg hle
      · rw [neg_mul]
        omega

end IntegerPart

end ScriptCore.Exact
