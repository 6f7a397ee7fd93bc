import ScriptCore.Proofs.Cursor.Grammar

/-!
# Readers and writers of variable-length numbers

Natural numbers and integers are written in the same kind of fields and differ in what a
field spells. For both, the reader takes exactly the fields of at most ten bytes whose
number fits in 64 bits; what it refuses either ends too early or is no such field. Of all
fields that spell a number the writer takes the shortest, and no other is as short. Numbers
written one after another are read back in turn.
-/

namespace ScriptCore.Varint

open Cursor

variable {α : Type}

/-! ## Integers in two's complement -/

theorem value_lt (field : List UInt8) : value field < 128 ^ field.length := by
  induction field with
  | nil => simp [value]
  | cons b rest ih =>
      have hb := payload_lt b
      rw [value, List.length_cons, Nat.pow_succ]
      omega

/-- The number of a field, less its range where the highest bit is set. -/
theorem signedValue_eq_ite {field : List UInt8} (h : field ≠ []) :
    signedValue field =
      if 2 * value field < 128 ^ field.length then (value field : Int)
      else value field - (128 ^ field.length : Nat) := by
  induction field with
  | nil => contradiction
  | cons b rest ih =>
      have hb := payload_lt b
      cases hrest : rest with
      | nil =>
          simp only [signedValue, signedPayload, value, List.length_singleton, Nat.mul_zero,
            Nat.add_zero, Nat.pow_one]
          split
          · rw [if_pos (by omega)]
          · rw [if_neg (by omega)]
            rfl
      | cons c tail =>
          have hne : rest ≠ [] := by simp [hrest]
          -- The range of the rest is even, so the lowest group does not reach the sign.
          have heven : 128 ^ rest.length = 2 * (64 * 128 ^ tail.length) := by
            rw [hrest, List.length_cons, Nat.pow_succ]
            omega
          rw [← hrest, signedValue_cons hne, ih hne, value, List.length_cons, Nat.pow_succ, heven]
          split <;> split <;> omega

/-- The integer whose two's complement, seven bits a byte, is the number of the field. -/
def twosComplement (field : List UInt8) : Int :=
  (BitVec.ofNat (7 * field.length) (value field)).toInt

theorem twosComplement_eq_signedValue (field : List UInt8) :
    twosComplement field = signedValue field := by
  have hpow : 2 ^ (7 * field.length) = 128 ^ field.length := by
    rw [Nat.pow_mul]
  rcases eq_or_ne field [] with rfl | hne
  · rfl
  · calc
      twosComplement field
          = if 2 * value field < 128 ^ field.length then (value field : Int)
            else value field - (128 ^ field.length : Nat) := by
        rw [twosComplement, BitVec.toInt_eq_toNat_cond, BitVec.toNat_ofNat, hpow,
          Nat.mod_eq_of_lt (value_lt field)]
      _ = signedValue field := (signedValue_eq_ite hne).symm

/-! ## Refused input -/

/-- The input ends although another of the `groups` bytes allowed is due. -/
def Unfinished (groups : Nat) (bytes : List UInt8) : Prop :=
  bytes.length < groups ∧ ∀ b ∈ bytes, 128 ≤ b.toNat

instance (groups : Nat) (bytes : List UInt8) : Decidable (Unfinished groups bytes) :=
  inferInstanceAs (Decidable (_ ∧ _))

theorem unfinished_cons {groups : Nat} {b : UInt8} {rest : List UInt8} (h : 128 ≤ b.toNat) :
    Unfinished (groups + 1) (b :: rest) ↔ Unfinished groups rest := by
  simp [Unfinished, h]

/-- Why a number is refused of which at most `groups` bytes are allowed. -/
def refusal (groups : Nat) (bytes : List UInt8) : LoadError :=
  if Unfinished groups bytes then .unexpectedEnd else .invalidVarint

/-- A decoder that takes one group after another, and refuses a group for its content only
where it is the last one allowed, refuses input for these reasons. -/
theorem error_eq_refusal (decoder : Nat → List UInt8 → Except LoadError α × List UInt8)
    {NoRoom : UInt8 → Prop} [DecidablePred NoRoom] {last : UInt8 → α} {join : UInt8 → α → α}
    (hzero : ∀ bytes, decoder 0 bytes = (.error .invalidVarint, bytes))
    (hnil : ∀ groups, decoder (groups + 1) [] = (.error .unexpectedEnd, []))
    (hcons : ∀ groups b rest, decoder (groups + 1) (b :: rest) =
      if groups = 0 ∧ NoRoom b then (.error .invalidVarint, rest)
      else if isLast b then (.ok (last b), rest)
      else ((decoder groups rest).1.map (join b), (decoder groups rest).2))
    {groups : Nat} {bytes : List UInt8} {e : LoadError}
    (h : (decoder groups bytes).1 = .error e) : e = refusal groups bytes := by
  induction groups generalizing bytes with
  | zero =>
      obtain rfl : .invalidVarint = e := by simpa [hzero] using h
      simp [refusal, Unfinished]
  | succ groups ih =>
      cases bytes with
      | nil =>
          obtain rfl : .unexpectedEnd = e := by simpa [hnil] using h
          simp [refusal, Unfinished]
      | cons b rest =>
          rw [hcons, apply_ite Prod.fst, apply_ite Prod.fst] at h
          split at h
          · rename_i hroom
            obtain rfl : .invalidVarint = e := by simpa using h
            simp [refusal, Unfinished, hroom.1]
          · split at h
            · contradiction
            · rename_i hmore
              have hset := (not_isLast_iff b).mp hmore
              have hrest : (decoder groups rest).1 = .error e := by
                cases hdecoder : (decoder groups rest).1 with
                | ok a => simp [hdecoder, Except.map] at h
                | error f => simpa [hdecoder, Except.map] using h
              rw [ih hrest]
              simp only [refusal, unfinished_cons hset]

theorem decode_error {bytes : List UInt8} {e : LoadError} (h : (decode bytes).1 = .error e) :
    e = refusal 10 bytes := by
  rw [decode_eq_natGroups] at h
  exact error_eq_refusal natGroups (fun _ => rfl) (fun _ => rfl) natGroups_cons h

theorem decodeInt_error {bytes : List UInt8} {e : LoadError} (h : (decodeInt bytes).1 = .error e) :
    e = refusal 10 bytes := by
  rw [decodeInt_eq_intGroups] at h
  exact error_eq_refusal intGroups (fun _ => rfl) (fun _ => rfl) intGroups_cons h

/-! ## Shortest fields -/

theorem ofNat_payload_of_clear {b : UInt8} (h : b.toNat < 128) : UInt8.ofNat (payload b) = b := by
  rw [payload, Nat.mod_eq_of_lt h, UInt8.ofNat_toNat]

theorem ofNat_payload_of_set {b : UInt8} (h : 128 ≤ b.toNat) :
    UInt8.ofNat (128 + payload b) = b := by
  have hb := b.toNat_lt
  have hbyte : 128 + payload b = b.toNat := by
    rw [payload]
    omega
  rw [hbyte, UInt8.ofNat_toNat]

/-- Every other field of a natural number is longer than the one that is written. -/
theorem Grouped.eq_encode_or_longer {field : List UInt8} (h : Grouped field) :
    field = encode (value field) ∨ (encode (value field)).length < field.length := by
  induction h with
  | @last b clear =>
      have hb := payload_lt b
      left
      rw [value, value, encode_eq_ite, if_pos (by omega), Nat.mul_zero, Nat.add_zero,
        ofNat_payload_of_clear clear]
  | @more b tail set htail ih =>
      have hb := payload_lt b
      rw [value, encode_eq_ite]
      split
      · have hpos := htail.length_pos
        right
        simpa using hpos
      · have hlow : (payload b + 128 * value tail) % 128 = payload b := by omega
        have hhigh : (payload b + 128 * value tail) / 128 = value tail := by omega
        rw [hlow, hhigh, ofNat_payload_of_set set]
        simpa using ih

/-- Every other field of an integer is longer than the one that is written. -/
theorem Grouped.eq_encodeInt_or_longer {field : List UInt8} (h : Grouped field) :
    field = encodeInt (signedValue field) ∨
      (encodeInt (signedValue field)).length < field.length := by
  induction h with
  | @last b clear =>
      have hb := payload_lt b
      have hlow : (signedPayload b % 128).toNat = payload b := by
        rw [signedPayload]
        split <;> omega
      left
      rw [signedValue, encodeInt_eq_ite, if_pos (signedPayload_bounds b), hlow,
        ofNat_payload_of_clear clear]
  | @more b tail set htail ih =>
      have hb := payload_lt b
      rw [signedValue_cons htail.ne_nil, encodeInt_eq_ite]
      split
      · have hpos := htail.length_pos
        right
        simpa using hpos
      · have hlow : ((payload b + 128 * signedValue tail) % 128).toNat = payload b := by omega
        have hhigh : (payload b + 128 * signedValue tail) / 128 = signedValue tail := by omega
        rw [hlow, hhigh, ofNat_payload_of_set set]
        simpa using ih

/-! ## Codecs -/

/-- A field of at most ten bytes that spells a number that fits. -/
structure Spells (spelled : List UInt8 → α) (Fits : α → Prop) (field : List UInt8) (a : α) :
    Prop where
  grouped : Grouped field
  short : field.length ≤ 10
  spelled : spelled field = a
  fits : Fits a

/-- A reader and a writer of the numbers that fit, where `spelled` is what a field spells. -/
structure Codec (read : Read α) (write : α → List UInt8) (spelled : List UInt8 → α)
    (Fits : α → Prop) : Prop where
  /-- The reader takes exactly the fields that spell a number, whatever follows them. -/
  accepts : Follows read fun _ field a => Spells spelled Fits field a
  refuses : ∀ pos bytes e c, read ⟨pos, bytes⟩ = .error e c → e = refusal 10 bytes
  writes : ∀ a, Fits a → Spells spelled Fits (write a) a
  shortest : ∀ field a, Spells spelled Fits field a →
    field = write a ∨ (write a).length < field.length

theorem varint_codec : Codec varint encode value (· < 2 ^ 64) where
  accepts := by
    refine varint_follows.of_iff fun _ field n => ⟨?_, ?_⟩
    · rintro ⟨hfield, rfl⟩
      exact ⟨hfield.grouped, hfield.short, rfl, hfield.fits⟩
    · rintro ⟨hgrouped, hshort, rfl, hfits⟩
      exact ⟨⟨hgrouped, hshort, hfits⟩, rfl⟩
  refuses := by
    intro pos bytes e c h
    apply decode_error
    rw [varint] at h
    split at h <;> simp_all
  writes := by
    intro n h
    have hfield := isField_encode h
    exact ⟨hfield.grouped, hfield.short, value_encode n, h⟩
  shortest := by
    rintro field n ⟨hgrouped, -, rfl, -⟩
    exact hgrouped.eq_encode_or_longer

theorem signedVarint_codec :
    Codec signedVarint encodeInt twosComplement fun z => -2 ^ 63 ≤ z ∧ z < 2 ^ 63 := by
  rw [funext twosComplement_eq_signedValue]
  refine ⟨?accepts, ?refuses, ?writes, ?shortest⟩
  case accepts =>
    refine signedVarint_follows.of_iff fun _ field z => ⟨?_, ?_⟩
    · rintro ⟨hfield, rfl⟩
      exact ⟨hfield.grouped, hfield.short, rfl, hfield.atLeast, hfield.below⟩
    · rintro ⟨hgrouped, hshort, rfl, hge, hlt⟩
      exact ⟨⟨hgrouped, hshort, hge, hlt⟩, rfl⟩
  case refuses =>
    intro pos bytes e c h
    apply decodeInt_error
    rw [signedVarint] at h
    split at h <;> simp_all
  case writes =>
    rintro z ⟨hge, hlt⟩
    have hfield := isSignedField_encodeInt hge hlt
    exact ⟨hfield.grouped, hfield.short, signedValue_encodeInt z, hge, hlt⟩
  case shortest =>
    rintro field z ⟨hgrouped, -, rfl, -⟩
    exact hgrouped.eq_encodeInt_or_longer

/-- Natural numbers and integers are read exactly. A reader takes the fields of one to ten
bytes whose number fits in 64 bits, and any other input it refuses as ended too early or as
no number. Among the fields of a number the written one is the only shortest. -/
theorem numbers_are_read_exactly :
    Codec varint encode value (· < 2 ^ 64) ∧
      Codec signedVarint encodeInt twosComplement fun z => -2 ^ 63 ≤ z ∧ z < 2 ^ 63 :=
  ⟨varint_codec, signedVarint_codec⟩

-- A tenth byte with all its bits set is a sign, and no bit of a natural number.
example : signedVarint ⟨0, List.replicate 9 0x80 ++ [0x7f]⟩ = .ok (-2 ^ 63) ⟨10, []⟩ := rfl

example : varint ⟨0, List.replicate 9 0x80 ++ [0x7f]⟩ = .error .invalidVarint ⟨10, []⟩ := rfl

/-! ## Streams -/

theorem Codec.read_write {read : Read α} {write : α → List UInt8} {spelled : List UInt8 → α}
    {Fits : α → Prop} (h : Codec read write spelled Fits) {a : α} (ha : Fits a) (pos : Nat)
    (rest : List UInt8) : read ⟨pos, write a ++ rest⟩ = .ok a ⟨pos + (write a).length, rest⟩ :=
  h.accepts.read_append (h.writes a ha) rest

/-- A number of a stream. -/
inductive Number where
  | natural (n : UInt64)
  | integer (z : Int64)

/-- What a reader of a stream has to know of a number. -/
inductive Kind where
  | natural
  | integer

def Kind.read : Kind → Read (Nat ⊕ Int)
  | .natural => do return .inl (← varint)
  | .integer => do return .inr (← signedVarint)

namespace Number

def kind : Number → Kind
  | .natural _ => .natural
  | .integer _ => .integer

def written : Number → List UInt8
  | .natural n => encode n.toNat
  | .integer z => encodeInt z.toInt

/-- The number as a reader returns it. -/
def content : Number → Nat ⊕ Int
  | .natural n => .inl n.toNat
  | .integer z => .inr z.toInt

theorem read_written (number : Number) (pos : Nat) (rest : List UInt8) :
    number.kind.read ⟨pos, number.written ++ rest⟩ =
      .ok number.content ⟨pos + number.written.length, rest⟩ := by
  cases number with
  | natural n => exact bind_of_ok (varint_codec.read_write n.toNat_lt pos rest)
  | integer z =>
      exact bind_of_ok (signedVarint_codec.read_write ⟨z.le_toInt, z.toInt_lt⟩ pos rest)

end Number

theorem mapM_read_written (numbers : List Number) (pos : Nat) (suffix : List UInt8) :
    (numbers.map Number.kind).mapM Kind.read ⟨pos, numbers.flatMap Number.written ++ suffix⟩ =
      .ok (numbers.map Number.content)
        ⟨pos + (numbers.flatMap Number.written).length, suffix⟩ := by
  induction numbers generalizing pos with
  | nil => rfl
  | cons number rest ih =>
      simp only [List.map_cons, List.mapM_cons, List.flatMap_cons, List.append_assoc]
      rw [bind_of_ok (number.read_written pos _), bind_of_ok (ih _)]
      simp only [List.length_append, Nat.add_assoc]
      rfl

/-- Numbers of both kinds, written one after another, are read back in turn whatever comes
after them, and reading stops right behind the last one. A natural number takes as many bytes
as is said in advance. -/
theorem stream_of_numbers_is_read_back (numbers : List Number) (pos : Nat)
    (suffix : List UInt8) :
    (numbers.map Number.kind).mapM Kind.read ⟨pos, numbers.flatMap Number.written ++ suffix⟩ =
        .ok (numbers.map Number.content)
          ⟨pos + (numbers.flatMap Number.written).length, suffix⟩ ∧
      ∀ n : UInt64, size n.toNat = (Number.natural n).written.length :=
  ⟨mapM_read_written numbers pos suffix, fun n => (length_encode n.toNat).symm⟩

end ScriptCore.Varint
