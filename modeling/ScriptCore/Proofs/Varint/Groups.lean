import Mathlib.Tactic.LinearCombination
import Mathlib.Tactic.Ring
import Mathlib.Tactic.Zify
import ScriptCore.Varint

/-!
# Words gathered from groups of bits

The readers gather the bits of a number in a word, group by group, and the writers test single
bits to see where to stop. Here both are said in terms of numbers: a reader takes a number apart
into the payload of a byte and `128` times the number of the bytes behind it, and a writer stops
where one group holds what is left.
-/

namespace ScriptCore.Varint

/-- The low seven bits of a byte. -/
def payload (b : UInt8) : Nat :=
  b.toNat % 128

/-- Whether a byte is the last of its number. -/
def isLast (b : UInt8) : Bool :=
  b.toNat < 128

/-- The seven bits of a last byte, the highest being the sign. -/
def signedPayload (b : UInt8) : Int :=
  if payload b < 64 then payload b else payload b - 128

/-- Reads a natural number of at most `groups` bytes, where the last byte allowed has room
for one bit. -/
def natGroups : Nat → List UInt8 → Except LoadError Nat × List UInt8
  | 0, bytes => (.error .invalidVarint, bytes)
  | _ + 1, [] => (.error .unexpectedEnd, [])
  | groups + 1, b :: rest =>
      if groups = 0 ∧ 1 < payload b then (.error .invalidVarint, rest)
      else if isLast b then (.ok (payload b), rest)
      else
        match natGroups groups rest with
        | (.ok n, rest') => (.ok (payload b + 128 * n), rest')
        | (.error e, rest') => (.error e, rest')

/-- Reads an integer of at most `groups` bytes, where the last byte allowed has room for the
sign only. -/
def intGroups : Nat → List UInt8 → Except LoadError Int × List UInt8
  | 0, bytes => (.error .invalidVarint, bytes)
  | _ + 1, [] => (.error .unexpectedEnd, [])
  | groups + 1, b :: rest =>
      if groups = 0 ∧ payload b ≠ 0 ∧ payload b ≠ 127 then (.error .invalidVarint, rest)
      else if isLast b then (.ok (signedPayload b), rest)
      else
        match intGroups groups rest with
        | (.ok z, rest') => (.ok (payload b + 128 * z), rest')
        | (.error e, rest') => (.error e, rest')

theorem payload_lt (b : UInt8) : payload b < 128 := by
  rw [payload]
  omega

/-! ## Bits of a byte -/

theorem toNat_and_payload (b : UInt8) : (b &&& 0x7f).toNat = payload b := by
  rw [UInt8.toNat_and]
  exact Nat.and_two_pow_sub_one_eq_mod b.toNat 7

theorem and_high_eq_zero_iff (b : UInt8) : b &&& 0x80 = 0 ↔ isLast b = true := by
  have hbits : ∀ v : BitVec 8, UInt8.ofBitVec v &&& 0x80 = 0 ↔
      isLast (UInt8.ofBitVec v) = true := by
    decide +kernel
  exact hbits b.toBitVec

theorem and_sign_eq_zero_iff (b : UInt8) : b &&& 0x40 = 0 ↔ payload b < 64 := by
  have hbits : ∀ v : BitVec 8, UInt8.ofBitVec v &&& 0x40 = 0 ↔
      payload (UInt8.ofBitVec v) < 64 := by
    decide +kernel
  exact hbits b.toBitVec

theorem or_high (b : UInt8) : (b &&& 0x7f) ||| 0x80 = UInt8.ofNat (128 + payload b) := by
  have hbits : ∀ v : BitVec 8, (UInt8.ofBitVec v &&& 0x7f) ||| 0x80 =
      UInt8.ofNat (128 + payload (UInt8.ofBitVec v)) := by
    decide +kernel
  exact hbits b.toBitVec

/-! ## Bits of a word -/

/-- Bits that are put above the bits of a word are added to it, as far as there is room. -/
theorem toNat_or_shiftLeft {word x : UInt64} {shift : Nat} (hshift : shift < 64)
    (hword : word.toNat < 2 ^ shift) :
    (word ||| x <<< UInt64.ofNat shift).toNat =
      word.toNat + x.toNat % 2 ^ (64 - shift) * 2 ^ shift := by
  have hmod : (UInt64.ofNat shift).toNat % 64 = shift := by
    rw [UInt64.toNat_ofNat']
    omega
  have hsplit : 2 ^ 64 = 2 ^ (64 - shift) * 2 ^ shift := by
    rw [← pow_add, Nat.sub_add_cancel hshift.le]
  rw [UInt64.toNat_or, UInt64.toNat_shiftLeft, hmod, Nat.shiftLeft_eq, hsplit,
    Nat.mul_mod_mul_right, ← Nat.shiftLeft_eq, Nat.or_comm,
    ← Nat.shiftLeft_add_eq_or_of_lt hword, Nat.add_comm]

/-- There is room for all of a payload up to the last byte but one. -/
theorem toNat_or_payload {word : UInt64} {shift : Nat} (b : UInt8) (hshift : shift ≤ 57)
    (hword : word.toNat < 2 ^ shift) :
    (word ||| (b &&& 0x7f).toUInt64 <<< UInt64.ofNat shift).toNat =
      word.toNat + payload b * 2 ^ shift := by
  have hpow : 2 ^ 7 ≤ 2 ^ (64 - shift) := Nat.pow_le_pow_right two_pos (by omega)
  rw [toNat_or_shiftLeft (by omega) hword, UInt8.toNat_toUInt64, toNat_and_payload,
    Nat.mod_eq_of_lt (lt_of_lt_of_le (payload_lt b) hpow)]

theorem toNat_or_payload_lt {word : UInt64} {shift : Nat} (b : UInt8) (hshift : shift ≤ 57)
    (hword : word.toNat < 2 ^ shift) :
    (word ||| (b &&& 0x7f).toUInt64 <<< UInt64.ofNat shift).toNat < 2 ^ (shift + 7) := by
  have hpayload : payload b * 2 ^ shift ≤ 127 * 2 ^ shift :=
    Nat.mul_le_mul_right _ (Nat.le_of_lt_succ (payload_lt b))
  rw [toNat_or_payload b hshift hword, pow_add]
  omega

theorem toNat_ofInt (z : Int) : (UInt64.ofInt z).toNat = (z % 2 ^ 64).toNat := by
  have hlt : (z % 2 ^ 64).toNat < 2 ^ 64 := by omega
  exact Nat.mod_eq_of_lt hlt

theorem toInt_toInt64_ofInt {z : Int} (hge : -2 ^ 63 ≤ z) (hlt : z < 2 ^ 63) :
    (UInt64.ofInt z).toInt64.toInt = z := by
  have htoNat := toNat_ofInt z
  have hcond : (UInt64.ofInt z).toInt64.toInt =
      if 2 * (UInt64.ofInt z).toNat < 2 ^ 64 then ((UInt64.ofInt z).toNat : Int)
      else (UInt64.ofInt z).toNat - (2 ^ 64 : Nat) :=
    BitVec.toInt_eq_toNat_cond _
  rw [hcond]
  split <;> omega

/-! ## Gathering words -/

section Gathering

variable {α : Type} (hasRoom : UInt8 → Bool) (finish : Nat → UInt8 → UInt64 → UInt64)
  {NoRoom : UInt8 → Prop} [DecidablePred NoRoom] {last : UInt8 → α} {join : UInt8 → α → α}

/-- Where a reader of numbers takes the groups that a reader of words takes, and the word of the
last group stands for its number, the words stand for the numbers. -/
theorem decodeGroups_eq_map (reader : Nat → List UInt8 → Except LoadError α × List UInt8)
    (number : α → Int)
    (hzero : ∀ bytes, reader 0 bytes = (.error .invalidVarint, bytes))
    (hnil : ∀ groups, reader (groups + 1) [] = (.error .unexpectedEnd, []))
    (hcons : ∀ groups b rest, reader (groups + 1) (b :: rest) =
      if groups = 0 ∧ NoRoom b then (.error .invalidVarint, rest)
      else if isLast b then (.ok (last b), rest)
      else ((reader groups rest).1.map (join b), (reader groups rest).2))
    (hroom : ∀ b, hasRoom (b &&& 0x7f) = false ↔ NoRoom b)
    (hjoin : ∀ b a, number (join b a) = payload b + 128 * number a)
    (hfinish : ∀ shift word b, shift < 64 → word.toNat < 2 ^ shift →
      finish (shift + 7) b (word ||| (b &&& 0x7f).toUInt64 <<< UInt64.ofNat shift) =
        UInt64.ofInt (word.toNat + 2 ^ shift * number (last b)))
    {groups shift : Nat} {word : UInt64} (hshift : shift + 7 * groups = 70)
    (hword : word.toNat < 2 ^ shift) (bytes : List UInt8) :
    decodeGroups hasRoom finish groups shift word bytes =
      ((reader groups bytes).1.map fun a => UInt64.ofInt (word.toNat + 2 ^ shift * number a),
        (reader groups bytes).2) := by
  induction groups generalizing shift word bytes with
  | zero =>
      rw [hzero]
      rfl
  | succ groups ih =>
      cases bytes with
      | nil =>
          rw [hnil]
          rfl
      | cons b rest =>
          rw [decodeGroups, hcons]
          by_cases hrefused : groups = 0 ∧ NoRoom b
          · rw [if_pos hrefused, if_pos ⟨hrefused.1, (hroom b).mpr hrefused.2⟩]
            rfl
          · have hkept : ¬(groups = 0 ∧ hasRoom (b &&& 0x7f) = false) := by rwa [hroom]
            rw [if_neg hrefused, if_neg hkept]
            by_cases hlast : isLast b = true
            · rw [if_pos hlast, if_pos ((and_high_eq_zero_iff b).mpr hlast),
                hfinish shift word b (by omega) hword]
              rfl
            · rw [if_neg hlast, if_neg (mt (and_high_eq_zero_iff b).mp hlast)]
              cases groups with
              | zero =>
                  rw [hzero]
                  rfl
              | succ groups =>
                  have hgathered := toNat_or_payload b (by omega) hword
                  have hlt := toNat_or_payload_lt b (by omega) hword
                  rw [ih (by omega) hlt, hgathered]
                  refine Prod.ext ?_ rfl
                  rcases reader (groups + 1) rest with ⟨e | a, rest'⟩
                  · rfl
                  · refine congrArg (fun z => Except.ok (UInt64.ofInt z)) ?_
                    rw [hjoin, pow_add]
                    push_cast
                    ring

end Gathering

theorem natGroups_cons (groups : Nat) (b : UInt8) (rest : List UInt8) :
    natGroups (groups + 1) (b :: rest) =
      if groups = 0 ∧ 1 < payload b then (.error .invalidVarint, rest)
      else if isLast b then (.ok (payload b), rest)
      else ((natGroups groups rest).1.map fun n => payload b + 128 * n,
        (natGroups groups rest).2) := by
  rw [natGroups]
  rcases natGroups groups rest with ⟨e | n, rest'⟩ <;> rfl

theorem intGroups_cons (groups : Nat) (b : UInt8) (rest : List UInt8) :
    intGroups (groups + 1) (b :: rest) =
      if groups = 0 ∧ payload b ≠ 0 ∧ payload b ≠ 127 then (.error .invalidVarint, rest)
      else if isLast b then (.ok (signedPayload b), rest)
      else ((intGroups groups rest).1.map fun z => payload b + 128 * z,
        (intGroups groups rest).2) := by
  rw [intGroups]
  rcases intGroups groups rest with ⟨e | z, rest'⟩ <;> rfl

/-- A word stands for every number that differs from it by a multiple of `2 ^ 64`. -/
theorem eq_ofInt {word : UInt64} {z k : Int} (h : (word.toNat : Int) = z + 2 ^ 64 * k) :
    word = UInt64.ofInt z := by
  have hword := word.toNat_lt
  rw [← UInt64.toNat_inj, toNat_ofInt]
  omega

/-- Bits for which there is no room are worth a multiple of `2 ^ 64`. -/
theorem exists_toNat_or_shiftLeft {word : UInt64} {shift : Nat} (x : UInt64) (hshift : shift < 64)
    (hword : word.toNat < 2 ^ shift) :
    ∃ k : Int, ((word ||| x <<< UInt64.ofNat shift).toNat : Int) =
      word.toNat + 2 ^ shift * x.toNat + 2 ^ 64 * k := by
  have hsplit : (2 : Int) ^ 64 = 2 ^ shift * 2 ^ (64 - shift) := by
    rw [← pow_add, Nat.add_sub_cancel' hshift.le]
  have hdiv := Nat.mod_add_div x.toNat (2 ^ (64 - shift))
  refine ⟨-(x.toNat / 2 ^ (64 - shift) : Nat), ?_⟩
  rw [toNat_or_shiftLeft hshift hword, hsplit]
  zify at hdiv
  push_cast
  linear_combination (2 : Int) ^ shift * hdiv

/-- The word that is gathered stands for the natural number. -/
theorem or_payload_eq_ofInt {word : UInt64} {shift : Nat} (b : UInt8) (hshift : shift < 64)
    (hword : word.toNat < 2 ^ shift) :
    word ||| (b &&& 0x7f).toUInt64 <<< UInt64.ofNat shift =
      UInt64.ofInt (word.toNat + 2 ^ shift * payload b) := by
  obtain ⟨k, hk⟩ := exists_toNat_or_shiftLeft (b &&& 0x7f).toUInt64 hshift hword
  rw [UInt8.toNat_toUInt64, toNat_and_payload] at hk
  exact eq_ofInt hk

/-- The word that is gathered and extended by its sign stands for the integer. -/
theorem signExtend_eq_ofInt {word : UInt64} {shift : Nat} (b : UInt8) (hshift : shift < 64)
    (hword : word.toNat < 2 ^ shift) :
    signExtend (shift + 7) b (word ||| (b &&& 0x7f).toUInt64 <<< UInt64.ofNat shift) =
      UInt64.ofInt (word.toNat + 2 ^ shift * signedPayload b) := by
  rw [signExtend, signedPayload]
  by_cases hsign : payload b < 64
  · rw [if_neg (fun h => h.2 ((and_sign_eq_zero_iff b).mpr hsign)), if_pos hsign]
    exact or_payload_eq_ofInt b hshift hword
  · have hset : b &&& 0x40 ≠ 0 := mt (and_sign_eq_zero_iff b).mp hsign
    rw [if_neg hsign]
    by_cases hroom : shift + 7 < 64
    · -- All ones above the groups are worth the negative of the first bit above them.
      have hlt := toNat_or_payload_lt b (by omega) hword
      obtain ⟨k, hk⟩ := exists_toNat_or_shiftLeft (~~~0) hroom hlt
      have hones : ((~~~0 : UInt64).toNat : Int) = 2 ^ 64 - 1 := rfl
      rw [toNat_or_payload b (by omega) hword, hones] at hk
      rw [if_pos ⟨hroom, hset⟩]
      apply eq_ofInt (k := k + 2 ^ (shift + 7))
      rw [hk, pow_add]
      push_cast
      ring
    · -- The sign bit is the highest bit of the word already.
      obtain ⟨k, hk⟩ := exists_toNat_or_shiftLeft (b &&& 0x7f).toUInt64 hshift hword
      rw [UInt8.toNat_toUInt64, toNat_and_payload] at hk
      have hexponent : shift = 57 + (shift - 57) := by omega
      have hpow : (2 : Int) ^ shift * 128 = 2 ^ 64 * 2 ^ (shift - 57) := by
        conv_lhs => rw [hexponent, pow_add]
        ring
      rw [if_neg (fun h => hroom h.1)]
      apply eq_ofInt (k := k + 2 ^ (shift - 57))
      linear_combination hk + hpow

theorem decode_eq_map (bytes : List UInt8) :
    decode bytes = ((natGroups 10 bytes).1.map fun n => (UInt64.ofInt n).toNat,
      (natGroups 10 bytes).2) := by
  have hroom : ∀ b : UInt8, decide (b &&& 0x7f ≤ 1) = false ↔ 1 < payload b := by
    intro b
    rw [decide_eq_false_iff_not, UInt8.not_le, UInt8.lt_iff_toNat_lt, toNat_and_payload]
    rfl
  have hwords := decodeGroups_eq_map (· ≤ 1) (fun _ _ word => word) natGroups Nat.cast
    (fun _ => rfl) (fun _ => rfl) natGroups_cons hroom (fun _ _ => by push_cast; rfl)
    (fun _ _ b hshift hword => or_payload_eq_ofInt b hshift hword) (by rfl : 0 + 7 * 10 = 70)
    (by decide : (0 : UInt64).toNat < 2 ^ 0) bytes
  rw [decode, hwords]
  rcases natGroups 10 bytes with ⟨e | n, rest⟩
  · rfl
  · simp [Except.map]

theorem decodeInt_eq_map (bytes : List UInt8) :
    decodeInt bytes = ((intGroups 10 bytes).1.map fun z => (UInt64.ofInt z).toInt64.toInt,
      (intGroups 10 bytes).2) := by
  have hroom : ∀ b : UInt8, decide (b &&& 0x7f = 0 ∨ b &&& 0x7f = 0x7f) = false ↔
      payload b ≠ 0 ∧ payload b ≠ 127 := by
    intro b
    rw [decide_eq_false_iff_not, not_or, ← UInt8.toNat_inj, ← UInt8.toNat_inj, toNat_and_payload]
    rfl
  have hwords := decodeGroups_eq_map (fun p => p = 0 ∨ p = 0x7f) signExtend intGroups id
    (fun _ => rfl) (fun _ => rfl) intGroups_cons hroom (fun _ _ => rfl)
    (fun _ _ b hshift hword => signExtend_eq_ofInt b hshift hword) (by rfl : 0 + 7 * 10 = 70)
    (by decide : (0 : UInt64).toNat < 2 ^ 0) bytes
  rw [decodeInt, hwords]
  rcases intGroups 10 bytes with ⟨e | z, rest⟩
  · rfl
  · simp [Except.map]

/-! ## Where writers stop -/

theorem encode_eq_ite (n : Nat) : encode n =
    if n < 128 then [UInt8.ofNat n] else UInt8.ofNat (128 + n % 128) :: encode (n / 128) := by
  have hshift : n >>> 7 = n / 128 := Nat.shiftRight_eq_div_pow n 7
  have hpayload : payload (UInt8.ofNat n) = n % 128 := by
    rw [payload, UInt8.toNat_ofNat']
    omega
  have hdone : n / 128 = 0 ↔ n < 128 := by omega
  rw [encode]
  simp only [hshift, hdone, or_high, hpayload]
  split
  case isTrue h =>
    have hbyte : UInt8.ofNat n &&& 0x7f = UInt8.ofNat n := by
      rw [← UInt8.toNat_inj, toNat_and_payload, hpayload, UInt8.toNat_ofNat']
      omega
    rw [hbyte]
  case isFalse => rfl

theorem payload_ofInt (z : Int) : payload (UInt8.ofInt z) = (z % 128).toNat := by
  have hbyte : (UInt8.ofInt z).toNat = (z % 256).toNat % 256 := rfl
  rw [payload, hbyte]
  omega

/-- One group holds what is left when its highest bit is the sign. -/
theorem isSettled_iff (z : Int) :
    isSettled (UInt8.ofInt z &&& 0x7f) (z >>> (7 : Nat)) = true ↔ -64 ≤ z ∧ z < 64 := by
  have hshift : z >>> (7 : Nat) = z / 128 := Int.shiftRight_eq_div_pow z 7
  have hpayload : payload (UInt8.ofInt z &&& 0x7f) = (z % 128).toNat := by
    rw [payload, toNat_and_payload, payload_ofInt]
    omega
  simp only [isSettled, Bool.or_eq_true, Bool.and_eq_true, beq_iff_eq, bne_iff_ne, ne_eq,
    and_sign_eq_zero_iff, hpayload, hshift]
  omega

theorem encodeInt_eq_ite (z : Int) : encodeInt z =
    if -64 ≤ z ∧ z < 64 then [UInt8.ofNat (z % 128).toNat]
    else UInt8.ofNat (128 + (z % 128).toNat) :: encodeInt (z / 128) := by
  have hshift : z >>> (7 : Nat) = z / 128 := Int.shiftRight_eq_div_pow z 7
  have hbyte : UInt8.ofInt z &&& 0x7f = UInt8.ofNat (z % 128).toNat := by
    rw [← UInt8.toNat_inj, toNat_and_payload, payload_ofInt, UInt8.toNat_ofNat']
    omega
  rw [encodeInt]
  simp only [isSettled_iff]
  rw [or_high, payload_ofInt, hbyte, hshift]

/-- Natural numbers by the groups they are written in. -/
theorem groups_induction {motive : Nat → Prop} (last : ∀ n, n < 128 → motive n)
    (more : ∀ n, ¬ n < 128 → motive (n / 128) → motive n) (n : Nat) : motive n := by
  induction n using Nat.strongRecOn with
  | ind n ih =>
      by_cases h : n < 128
      · exact last n h
      · exact more n h (ih (n / 128) (by omega))

/-- Integers by the groups they are written in. -/
theorem signedGroups_induction {motive : Int → Prop}
    (last : ∀ z, -64 ≤ z ∧ z < 64 → motive z)
    (more : ∀ z, ¬ (-64 ≤ z ∧ z < 64) → motive (z / 128) → motive z) (z : Int) : motive z := by
  induction h : z.natAbs using Nat.strongRecOn generalizing z with
  | ind n ih =>
      by_cases hz : -64 ≤ z ∧ z < 64
      · exact last z hz
      · exact more z hz (ih (z / 128).natAbs (by omega) _ rfl)

end ScriptCore.Varint
