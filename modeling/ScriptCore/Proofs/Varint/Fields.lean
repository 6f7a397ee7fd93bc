import Mathlib.Tactic.Linarith
import ScriptCore.Proofs.Varint.Groups

/-!
# The byte fields that spell a number

A field is a run of bytes that all continue the number but the last. It spells a
natural number, read off its groups of seven bits, and an integer, the highest bit of
the last group being the sign. The readers accept exactly the fields of at most ten
bytes whose number fits in 64 bits, shortest or not; the writers produce one of them.
-/

namespace ScriptCore.Varint

/-- Every byte but the last has its high bit set. -/
inductive Grouped : List UInt8 → Prop
  | last {b : UInt8} (clear : b.toNat < 128) : Grouped [b]
  | more {b : UInt8} {rest : List UInt8} (set : 128 ≤ b.toNat) (tail : Grouped rest) :
      Grouped (b :: rest)

/-- The number whose base-128 digits are the payloads, lowest first. -/
def value : List UInt8 → Nat
  | [] => 0
  | b :: rest => payload b + 128 * value rest

/-- The integer whose two's complement the payloads are, lowest first. -/
def signedValue : List UInt8 → Int
  | [] => 0
  | [b] => signedPayload b
  | b :: rest => payload b + 128 * signedValue rest

/-- A field that a reader of natural numbers accepts. -/
structure IsField (field : List UInt8) : Prop where
  grouped : Grouped field
  short : field.length ≤ 10
  fits : value field < 2 ^ 64

/-- A field that a reader of integers accepts. -/
structure IsSignedField (field : List UInt8) : Prop where
  grouped : Grouped field
  short : field.length ≤ 10
  atLeast : -2 ^ 63 ≤ signedValue field
  below : signedValue field < 2 ^ 63

theorem Grouped.ne_nil {field : List UInt8} (h : Grouped field) : field ≠ [] := by
  cases h <;> simp

theorem Grouped.length_pos {field : List UInt8} (h : Grouped field) : 0 < field.length :=
  List.length_pos_iff.mpr h.ne_nil

theorem signedValue_cons {b : UInt8} {rest : List UInt8} (h : rest ≠ []) :
    signedValue (b :: rest) = payload b + 128 * signedValue rest := by
  cases rest with
  | nil => exact absurd rfl h
  | cons c rest => rfl

/-- No field starts another: where two fields start the same bytes, they are one. -/
theorem Grouped.append_inj {f g s t : List UInt8} (hf : Grouped f) (hg : Grouped g)
    (h : f ++ s = g ++ t) : f = g ∧ s = t := by
  induction hf generalizing g with
  | last clear =>
      cases hg with
      | last _ => simpa using h
      | more set _ =>
          have hhead := (List.cons.inj h).1
          rw [hhead] at clear
          omega
  | more set tail ih =>
      cases hg with
      | last clear =>
          have hhead := (List.cons.inj h).1
          rw [hhead] at set
          omega
      | more _ tail' =>
          obtain ⟨hhead, htail⟩ := List.cons.inj h
          obtain ⟨hrest, hst⟩ := ih tail' htail
          exact ⟨by rw [hhead, hrest], hst⟩

theorem isLast_iff (b : UInt8) : isLast b = true ↔ b.toNat < 128 := by
  simp [isLast]

theorem not_isLast_iff (b : UInt8) : ¬ isLast b = true ↔ 128 ≤ b.toNat := by
  rw [isLast_iff, Nat.not_lt]

/-- What the reader accepts is a field, and of a tenth byte it takes one bit only. -/
theorem grouped_of_natGroups {groups n : Nat} {bytes rest : List UInt8}
    (h : natGroups (groups + 1) bytes = (.ok n, rest)) :
    ∃ field, bytes = field ++ rest ∧ Grouped field ∧ field.length ≤ groups + 1 ∧
      value field = n ∧ n < 2 * 128 ^ groups := by
  -- Each group but the last allowed one adds seven bits, the last one a single bit.
  induction groups generalizing bytes n with
  | zero =>
      cases bytes with
      | nil => simp [natGroups] at h
      | cons b tail =>
          simp only [natGroups, true_and] at h
          split at h
          · simp at h
          · rename_i hroom
            split at h
            · rename_i hlast
              obtain ⟨rfl, rfl⟩ : payload b = n ∧ tail = rest := by simpa using h
              exact ⟨[b], rfl, .last ((isLast_iff b).mp hlast), by simp, by simp [value], by omega⟩
            · simp at h
  | succ groups ih =>
      cases bytes with
      | nil => simp [natGroups] at h
      | cons b tail =>
          have hb := payload_lt b
          rw [natGroups, if_neg (by omega)] at h
          split at h
          · rename_i hlast
            obtain ⟨rfl, rfl⟩ : payload b = n ∧ tail = rest := by simpa using h
            refine ⟨[b], rfl, .last ((isLast_iff b).mp hlast), by simp, by simp [value], ?_⟩
            have hpow : 1 ≤ 128 ^ groups := Nat.one_le_pow _ _ (by omega)
            rw [Nat.pow_succ]
            omega
          · rename_i hmore
            split at h
            · rename_i m rest' hm
              obtain ⟨rfl, rfl⟩ : payload b + 128 * m = n ∧ rest' = rest := by simpa using h
              obtain ⟨field, rfl, hfield, hlen, rfl, hlt⟩ := ih hm
              have hset : 128 ≤ b.toNat := (not_isLast_iff b).mp hmore
              refine ⟨b :: field, rfl, .more hset hfield, by simpa using hlen, rfl, ?_⟩
              rw [Nat.pow_succ]
              omega
            · simp at h

/-- The reader accepts every such field, whatever follows it. -/
theorem Grouped.natGroups_append {field : List UInt8} (h : Grouped field) {groups : Nat}
    (hlen : field.length ≤ groups + 1) (hlt : value field < 2 * 128 ^ groups)
    (rest : List UInt8) :
    natGroups (groups + 1) (field ++ rest) = (.ok (value field), rest) := by
  induction h generalizing groups with
  | @last b clear =>
      simp only [value] at hlt
      have hroom : ¬ (groups = 0 ∧ 1 < payload b) := by
        rintro ⟨rfl, hpayload⟩
        omega
      have hlast : isLast b = true := (isLast_iff b).mpr clear
      simp [natGroups, value, hroom, hlast]
  | @more b tail set htail ih =>
      have hpos := htail.length_pos
      rw [List.length_cons] at hlen
      obtain ⟨groups, rfl⟩ : ∃ k, groups = k + 1 := ⟨groups - 1, by omega⟩
      simp only [value, Nat.pow_succ] at hlt
      have hmore : ¬ isLast b = true := (not_isLast_iff b).mpr set
      rw [List.cons_append, natGroups, if_neg (by omega), if_neg hmore,
        ih (by omega) (by omega), value]

/-- Every number that is read fits in a word, so the word that is gathered is the number. -/
theorem decode_eq_natGroups (bytes : List UInt8) : decode bytes = natGroups 10 bytes := by
  have hpow : 2 * 128 ^ 9 = 2 ^ 64 := by norm_num
  rw [decode_eq_map]
  rcases hread : natGroups 10 bytes with ⟨e | n, rest⟩
  · rfl
  · obtain ⟨-, -, -, -, -, hlt⟩ := grouped_of_natGroups hread
    have hword : (UInt64.ofInt n).toNat = n := by
      rw [toNat_ofInt]
      omega
    exact Prod.ext (congrArg Except.ok hword) rfl

/-- The reader of natural numbers accepts exactly the fields, and says what they spell. -/
theorem decode_eq_ok_iff {bytes rest : List UInt8} {n : Nat} :
    decode bytes = (.ok n, rest) ↔
      ∃ field, bytes = field ++ rest ∧ IsField field ∧ value field = n := by
  have hpow : 2 * 128 ^ 9 = 2 ^ 64 := by norm_num
  rw [decode_eq_natGroups]
  constructor
  · intro h
    obtain ⟨field, hbytes, hgrouped, hlen, hvalue, hlt⟩ := grouped_of_natGroups h
    exact ⟨field, hbytes, ⟨hgrouped, hlen, by omega⟩, hvalue⟩
  · rintro ⟨field, rfl, hfield, rfl⟩
    exact hfield.grouped.natGroups_append hfield.short (by have := hfield.fits; omega) rest

/-- What was read is read again from longer input. -/
theorem decode_append {bytes rest : List UInt8} {n : Nat} (h : decode bytes = (.ok n, rest))
    (suffix : List UInt8) : decode (bytes ++ suffix) = (.ok n, rest ++ suffix) := by
  obtain ⟨field, rfl, hfield⟩ := decode_eq_ok_iff.mp h
  exact decode_eq_ok_iff.mpr ⟨field, List.append_assoc _ _ _, hfield⟩

theorem signedPayload_bounds (b : UInt8) : -64 ≤ signedPayload b ∧ signedPayload b < 64 := by
  have := payload_lt b
  rw [signedPayload]
  split <;> omega

theorem signedPayload_of_room {b : UInt8} (h : payload b = 0 ∨ payload b = 127) :
    -1 ≤ signedPayload b ∧ signedPayload b < 1 := by
  rw [signedPayload]
  split <;> omega

/-- What the signed reader accepts is a field, and of a tenth byte it takes the sign only. -/
theorem grouped_of_intGroups {groups : Nat} {z : Int} {bytes rest : List UInt8}
    (h : intGroups (groups + 1) bytes = (.ok z, rest)) :
    ∃ field, bytes = field ++ rest ∧ Grouped field ∧ field.length ≤ groups + 1 ∧
      signedValue field = z ∧ -128 ^ groups ≤ z ∧ z < 128 ^ groups := by
  induction groups generalizing bytes z with
  | zero =>
      cases bytes with
      | nil => simp [intGroups] at h
      | cons b tail =>
          simp only [intGroups, true_and] at h
          split at h
          · simp at h
          · rename_i hroom
            split at h
            · rename_i hlast
              obtain ⟨rfl, rfl⟩ : signedPayload b = z ∧ tail = rest := by simpa using h
              have hbounds := @signedPayload_of_room b (by omega)
              exact ⟨[b], rfl, .last ((isLast_iff b).mp hlast), by simp, rfl,
                by simpa using hbounds.1, by simpa using hbounds.2⟩
            · simp at h
  | succ groups ih =>
      have hpow : (1 : Int) ≤ 128 ^ groups := one_le_pow₀ (by omega)
      cases bytes with
      | nil => simp [intGroups] at h
      | cons b tail =>
          have hb := payload_lt b
          rw [intGroups, if_neg (by omega)] at h
          split at h
          · rename_i hlast
            obtain ⟨rfl, rfl⟩ : signedPayload b = z ∧ tail = rest := by simpa using h
            have hbounds := signedPayload_bounds b
            refine ⟨[b], rfl, .last ((isLast_iff b).mp hlast), by simp, rfl, ?_, ?_⟩ <;>
              rw [pow_succ] <;> omega
          · rename_i hmore
            split at h
            · rename_i y rest' hy
              obtain ⟨rfl, rfl⟩ : (payload b : Int) + 128 * y = z ∧ rest' = rest := by
                simpa using h
              obtain ⟨field, rfl, hfield, hlen, rfl, hge, hlt⟩ := ih hy
              have hset : 128 ≤ b.toNat := (not_isLast_iff b).mp hmore
              refine ⟨b :: field, rfl, .more hset hfield, by simpa using hlen,
                signedValue_cons hfield.ne_nil, ?_, ?_⟩ <;> rw [pow_succ] <;> omega
            · simp at h

/-- The signed reader accepts every such field, whatever follows it. -/
theorem Grouped.intGroups_append {field : List UInt8} (h : Grouped field) {groups : Nat}
    (hlen : field.length ≤ groups + 1) (hge : -128 ^ groups ≤ signedValue field)
    (hlt : signedValue field < 128 ^ groups) (rest : List UInt8) :
    intGroups (groups + 1) (field ++ rest) = (.ok (signedValue field), rest) := by
  induction h generalizing groups with
  | @last b clear =>
      simp only [signedValue] at hge hlt
      have hb := payload_lt b
      have hroom : ¬ (groups = 0 ∧ payload b ≠ 0 ∧ payload b ≠ 127) := by
        rintro ⟨rfl, hzero, hones⟩
        rw [signedPayload] at hge hlt
        split at hge <;> omega
      have hlast : isLast b = true := (isLast_iff b).mpr clear
      rw [List.singleton_append, intGroups, if_neg hroom, if_pos hlast, signedValue]
  | @more b tail set htail ih =>
      have hpos := htail.length_pos
      have hb := payload_lt b
      rw [List.length_cons] at hlen
      obtain ⟨groups, rfl⟩ : ∃ k, groups = k + 1 := ⟨groups - 1, by omega⟩
      rw [signedValue_cons htail.ne_nil, pow_succ] at hge hlt
      have hmore : ¬ isLast b = true := (not_isLast_iff b).mpr set
      rw [List.cons_append, intGroups, if_neg (by omega), if_neg hmore,
        ih (by omega) (by omega) (by omega), signedValue_cons htail.ne_nil]

theorem decodeInt_eq_intGroups (bytes : List UInt8) : decodeInt bytes = intGroups 10 bytes := by
  have hpow : (128 : Int) ^ 9 = 2 ^ 63 := by norm_num
  rw [decodeInt_eq_map]
  rcases hread : intGroups 10 bytes with ⟨e | z, rest⟩
  · rfl
  · obtain ⟨-, -, -, -, -, hge, hlt⟩ := grouped_of_intGroups hread
    exact Prod.ext (congrArg Except.ok (toInt_toInt64_ofInt (by omega) (by omega))) rfl

/-- The reader of integers accepts exactly the signed fields, and says what they spell. -/
theorem decodeInt_eq_ok_iff {bytes rest : List UInt8} {z : Int} :
    decodeInt bytes = (.ok z, rest) ↔
      ∃ field, bytes = field ++ rest ∧ IsSignedField field ∧ signedValue field = z := by
  have hpow : (128 : Int) ^ 9 = 2 ^ 63 := by norm_num
  rw [decodeInt_eq_intGroups]
  constructor
  · intro h
    obtain ⟨field, hbytes, hgrouped, hlen, hvalue, hge, hlt⟩ := grouped_of_intGroups h
    exact ⟨field, hbytes, ⟨hgrouped, hlen, by omega, by omega⟩, hvalue⟩
  · rintro ⟨field, rfl, hfield, rfl⟩
    have hge := hfield.atLeast
    have hlt := hfield.below
    exact hfield.grouped.intGroups_append hfield.short (by omega) (by omega) rest

theorem decodeInt_append {bytes rest : List UInt8} {z : Int}
    (h : decodeInt bytes = (.ok z, rest)) (suffix : List UInt8) :
    decodeInt (bytes ++ suffix) = (.ok z, rest ++ suffix) := by
  obtain ⟨field, rfl, hfield⟩ := decodeInt_eq_ok_iff.mp h
  exact decodeInt_eq_ok_iff.mpr ⟨field, List.append_assoc _ _ _, hfield⟩

theorem toNat_ofNat_of_lt {n : Nat} (h : n < 256) : (UInt8.ofNat n).toNat = n := by
  rw [UInt8.toNat_ofNat']
  exact Nat.mod_eq_of_lt h

theorem payload_ofNat_of_lt {n : Nat} (h : n < 128) : payload (UInt8.ofNat n) = n := by
  rw [payload, toNat_ofNat_of_lt (by omega)]
  omega

theorem payload_ofNat_add {n : Nat} (h : n < 128) : payload (UInt8.ofNat (128 + n)) = n := by
  rw [payload, toNat_ofNat_of_lt (by omega)]
  omega

theorem grouped_encode (n : Nat) : Grouped (encode n) := by
  induction n using groups_induction with
  | last n h =>
      rw [encode_eq_ite, if_pos h]
      exact .last (by rw [toNat_ofNat_of_lt] <;> omega)
  | more n h ih =>
      rw [encode_eq_ite, if_neg h]
      exact .more (by rw [toNat_ofNat_of_lt] <;> omega) ih

@[simp] theorem value_encode (n : Nat) : value (encode n) = n := by
  induction n using groups_induction with
  | last n h =>
      rw [encode_eq_ite, if_pos h, value, value, payload_ofNat_of_lt h]
      omega
  | more n h ih =>
      rw [encode_eq_ite, if_neg h, value, ih, payload_ofNat_add (by omega)]
      omega

@[simp] theorem length_encode (n : Nat) : (encode n).length = size n := by
  induction n using groups_induction with
  | last n h => rw [encode_eq_ite, if_pos h, size, if_pos h, List.length_singleton]
  | more n h ih =>
      rw [encode_eq_ite, if_neg h, size, if_neg h, List.length_cons, ih]
      omega

/-- A number takes as many bytes as it has groups of seven bits. -/
theorem size_le_iff (n k : Nat) : size n ≤ k + 1 ↔ n < 128 ^ (k + 1) := by
  induction k generalizing n with
  | zero =>
      rw [size]
      split
      · omega
      · rw [size]
        split <;> omega
  | succ k ih =>
      have hpow : 128 ≤ 128 ^ (k + 1 + 1) := Nat.le_self_pow (by omega) 128
      rw [size]
      split
      · omega
      · have hdiv : n / 128 < 128 ^ (k + 1) ↔ n < 128 ^ (k + 1) * 128 :=
          Nat.div_lt_iff_lt_mul (by omega)
        rw [Nat.pow_succ, ← hdiv, ← ih]
        omega

theorem size_pos (n : Nat) : 0 < size n := by
  rw [size]
  split <;> omega

theorem size_mono {m n : Nat} (h : m ≤ n) : size m ≤ size n := by
  have hn := (size_le_iff n (size n - 1)).mp (by have := size_pos n; omega)
  have hm := (size_le_iff m (size n - 1)).mpr (Nat.lt_of_le_of_lt h hn)
  have := size_pos n
  omega

/-- The writer of natural numbers writes a field of the number. -/
theorem isField_encode {n : Nat} (h : n < 2 ^ 64) : IsField (encode n) := by
  refine ⟨grouped_encode n, ?_, by rwa [value_encode]⟩
  rw [length_encode, size_le_iff]
  exact Nat.lt_trans h (by norm_num)

theorem decode_encode_append {n : Nat} (h : n < 2 ^ 64) (rest : List UInt8) :
    decode (encode n ++ rest) = (.ok n, rest) :=
  decode_eq_ok_iff.mpr ⟨encode n, rfl, isField_encode h, value_encode n⟩

theorem grouped_encodeInt (z : Int) : Grouped (encodeInt z) := by
  induction z using signedGroups_induction with
  | last z h =>
      rw [encodeInt_eq_ite, if_pos h]
      exact .last (by rw [toNat_ofNat_of_lt] <;> omega)
  | more z h ih =>
      rw [encodeInt_eq_ite, if_neg h]
      exact .more (by rw [toNat_ofNat_of_lt] <;> omega) ih

@[simp] theorem signedValue_encodeInt (z : Int) : signedValue (encodeInt z) = z := by
  induction z using signedGroups_induction with
  | last z h =>
      rw [encodeInt_eq_ite, if_pos h, signedValue, signedPayload, payload_ofNat_of_lt (by omega)]
      split <;> omega
  | more z h ih =>
      rw [encodeInt_eq_ite, if_neg h, signedValue_cons (grouped_encodeInt _).ne_nil, ih,
        payload_ofNat_add (by omega)]
      omega

/-- The last byte of an integer holds six bits and the sign. -/
theorem length_encodeInt_le {z : Int} {k : Nat} (hge : -(64 * 128 ^ k) ≤ z)
    (hlt : z < 64 * 128 ^ k) : (encodeInt z).length ≤ k + 1 := by
  induction k generalizing z with
  | zero =>
      rw [encodeInt_eq_ite, if_pos (by omega)]
      simp
  | succ k ih =>
      rw [encodeInt_eq_ite]
      split
      · simp
      · rw [pow_succ] at hge hlt
        have hrest := @ih (z / 128) (by omega) (by omega)
        rw [List.length_cons]
        omega

/-- The writer of integers writes a field of the integer. -/
theorem isSignedField_encodeInt {z : Int} (hge : -2 ^ 63 ≤ z) (hlt : z < 2 ^ 63) :
    IsSignedField (encodeInt z) := by
  have hpow : (2 : Int) ^ 63 ≤ 64 * 128 ^ 9 := by norm_num
  refine ⟨grouped_encodeInt z, length_encodeInt_le ?_ ?_, ?_, ?_⟩
  · omega
  · omega
  · rwa [signedValue_encodeInt]
  · rwa [signedValue_encodeInt]

theorem decodeInt_encodeInt_append {z : Int} (hge : -2 ^ 63 ≤ z) (hlt : z < 2 ^ 63)
    (rest : List UInt8) : decodeInt (encodeInt z ++ rest) = (.ok z, rest) :=
  decodeInt_eq_ok_iff.mpr
    ⟨encodeInt z, rfl, isSignedField_encodeInt hge hlt, signedValue_encodeInt z⟩

end ScriptCore.Varint
