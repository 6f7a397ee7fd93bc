import ScriptCore.Proofs.Image.Format
import ScriptCore.Proofs.Varint.Codec

/-!
# Damaged images

A reader that delimits itself takes a field of bytes, whatever comes after it, and finds
the end of the input wherever that field is cut short. Single fields are read so, and
readers in sequence are when each of them is. So an image that has lost bytes at its end
is never taken for another image, nor refused for what it says, but reported as cut short;
one that has gained bytes is reported for having more than its code.
-/

namespace ScriptCore

namespace Cursor

variable {α β : Type}

/-- `cut` has lost bytes at the end of `field`, perhaps all of them. -/
def CutFrom (cut field : List UInt8) : Prop :=
  cut <+: field ∧ cut ≠ field

/-- A cut falls into one of two parts. -/
theorem CutFrom.append {cut f g : List UInt8} (h : CutFrom cut (f ++ g)) :
    CutFrom cut f ∨ ∃ tail, cut = f ++ tail ∧ CutFrom tail g := by
  obtain ⟨hstart, hne⟩ := h
  rcases List.prefix_or_prefix_of_prefix hstart (List.prefix_append f g) with hcut | ⟨tail, rfl⟩
  · by_cases heq : cut = f
    · right
      refine ⟨[], by simp [heq], List.nil_prefix, ?_⟩
      rintro rfl
      exact hne (by simp [heq])
    · exact .inl ⟨hcut, heq⟩
  · right
    refine ⟨tail, rfl, (List.prefix_append_right_inj f).mp hstart, ?_⟩
    rintro rfl
    exact hne rfl

theorem CutFrom.length_lt {cut field : List UInt8} (h : CutFrom cut field) :
    cut.length < field.length :=
  Nat.lt_of_le_of_ne h.1.length_le fun heq => h.2 (h.1.eq_of_length heq)

/-- The reader takes `field` for `a`, and needs all of it. -/
structure Needs (r : Read α) (pos : Nat) (field : List UInt8) (a : α) : Prop where
  whole : ∀ rest, r ⟨pos, field ++ rest⟩ = .ok a ⟨pos + field.length, rest⟩
  cut : ∀ cut, CutFrom cut field → ∃ c, r ⟨pos, cut⟩ = .error .unexpectedEnd c

/-- Whatever the reader takes, it needs all of it. -/
def SelfDelimiting (r : Read α) : Prop :=
  ∀ pos bytes a c, r ⟨pos, bytes⟩ = .ok a c →
    ∃ field rest, bytes = field ++ rest ∧ c = ⟨pos + field.length, rest⟩ ∧ Needs r pos field a

namespace SelfDelimiting

variable {r : Read α}

theorem of_follows {G : Grammar α} (h : Follows r G)
    (hcut : ∀ pos field a, G pos field a → ∀ cut, CutFrom cut field →
      ∃ c, r ⟨pos, cut⟩ = .error .unexpectedEnd c) : SelfDelimiting r := by
  intro pos bytes a c hread
  obtain ⟨field, rest, hbytes, hfield, hc⟩ := (h pos bytes a c).mp hread
  exact ⟨field, rest, hbytes, hc, h.read_append hfield, hcut pos field a hfield⟩

theorem pure (a : α) : SelfDelimiting (pure a) := by
  apply of_follows (Follows.pure a)
  rintro pos field b ⟨rfl, rfl⟩ cut hcut
  exact absurd hcut.length_lt (Nat.not_lt_zero _)

/-- Readers in sequence delimit themselves when each of them does. -/
theorem bind {k : α → Read β} (h : SelfDelimiting r) (hk : ∀ a, SelfDelimiting (k a)) :
    SelfDelimiting (r >>= k) := by
  intro pos bytes b c hread
  obtain ⟨a, d, hr, hkr⟩ := bind_eq_ok_iff.mp hread
  obtain ⟨f, rest, rfl, rfl, hf⟩ := h _ _ _ _ hr
  obtain ⟨g, rest, rfl, rfl, hg⟩ := hk a _ _ _ _ hkr
  refine ⟨f ++ g, rest, by simp, by simp [Nat.add_assoc], ?whole, ?cut⟩
  case whole =>
    intro rest
    rw [List.append_assoc, bind_of_ok (hf.whole _), hg.whole, List.length_append, Nat.add_assoc]
  case cut =>
    intro cut hcut
    -- A cut in the first field stops the first reader; any other leaves that field whole.
    rcases hcut.append with hfirst | ⟨tail, rfl, hsecond⟩
    · obtain ⟨c, hc⟩ := hf.cut cut hfirst
      exact ⟨c, bind_of_error hc⟩
    · obtain ⟨c, hc⟩ := hg.cut tail hsecond
      refine ⟨c, ?_⟩
      rw [bind_of_ok (hf.whole tail), hc]

theorem check {p : Prop} [Decidable p] {e : LoadError} {k : Unit → Read α}
    (h : SelfDelimiting (k ())) : SelfDelimiting (if p then throw e >>= k else k ()) := by
  by_cases hp : p
  · rw [if_pos hp]
    -- Nothing is taken where the check fails.
    intro pos bytes a c hread
    cases hread
  · rw [if_neg hp]
    exact h

theorem here {k : Nat → Read α} (h : ∀ n, SelfDelimiting (k n)) :
    SelfDelimiting (get >>= fun c => k c.pos) := by
  intro pos bytes a c hread
  obtain ⟨field, rest, hbytes, hc, hneeds⟩ := h pos pos bytes a c hread
  exact ⟨field, rest, hbytes, hc, hneeds.whole, hneeds.cut⟩

end SelfDelimiting

theorem byte_selfDelimiting : SelfDelimiting byte := by
  apply SelfDelimiting.of_follows byte_follows
  rintro pos _ b rfl cut hcut
  obtain rfl : cut = [] := by simpa using hcut.length_lt
  exact ⟨_, rfl⟩

theorem take_selfDelimiting (n : Nat) : SelfDelimiting (take n) := by
  apply SelfDelimiting.of_follows (take_follows n)
  rintro pos field _ ⟨rfl, rfl⟩ cut hcut
  refine ⟨⟨pos, cut⟩, ?_⟩
  rw [take, if_neg (Nat.not_le_of_lt hcut.length_lt)]

theorem word_selfDelimiting : SelfDelimiting word :=
  (take_selfDelimiting 8).bind fun _ => .pure _

end Cursor

open Cursor

namespace Varint

variable {α : Type}

/-- All bytes continue a number whose last byte is lost. -/
theorem Grouped.set_of_mem_cut {field cut : List UInt8} (h : Grouped field)
    (hcut : CutFrom cut field) : ∀ b ∈ cut, 128 ≤ b.toNat := by
  induction h generalizing cut with
  | last _ =>
      obtain rfl : cut = [] := by simpa using hcut.length_lt
      simp
  | @more b tail set htail ih =>
      obtain ⟨hstart, hne⟩ := hcut
      rcases List.prefix_cons_iff.mp hstart with rfl | ⟨cut, rfl, htailcut⟩
      · simp
      · have hcut : CutFrom cut tail := ⟨htailcut, fun heq => hne (by rw [heq])⟩
        simpa [set] using ih hcut

/-- A number is never read from a part of its field. -/
theorem Codec.selfDelimiting {read : Read α} {write : α → List UInt8}
    {spelled : List UInt8 → α} {Fits : α → Prop} (h : Codec read write spelled Fits) :
    SelfDelimiting read := by
  apply SelfDelimiting.of_follows h.accepts
  intro pos field a hfield cut hcut
  have hlen := hcut.length_lt
  cases hread : read ⟨pos, cut⟩ with
  | ok b c =>
      -- What is read here is a field as well, and it would start the whole field.
      obtain ⟨part, rest, rfl, hpart, -⟩ := (h.accepts pos cut b c).mp hread
      obtain ⟨more, hmore⟩ := hcut.1
      have hwhole : field ++ [] = part ++ (rest ++ more) := by simp [← hmore]
      obtain ⟨rfl, -⟩ := hfield.grouped.append_inj hpart.grouped hwhole
      rw [List.length_append] at hlen
      omega
  | error e c =>
      have hunfinished : Unfinished 10 cut :=
        ⟨Nat.lt_of_lt_of_le hlen hfield.short, hfield.grouped.set_of_mem_cut hcut⟩
      have he := h.refuses pos cut e c hread
      rw [refusal, if_pos hunfinished] at he
      exact ⟨c, by rw [he]⟩

end Varint

namespace Image

theorem readEntry_selfDelimiting : SelfDelimiting readEntry :=
  word_selfDelimiting.bind fun _ => Varint.varint_codec.selfDelimiting.bind fun _ =>
    byte_selfDelimiting.bind fun _ => .pure _

theorem readTable_selfDelimiting (count : Nat) (seen : List UnitHash) :
    SelfDelimiting (readTable count seen) := by
  induction count generalizing seen with
  | zero => exact .pure []
  | succ count ih =>
      apply readEntry_selfDelimiting.bind
      intro entry
      apply SelfDelimiting.check
      exact (ih (entry.hash :: seen)).bind fun _ => .pure _

/-- Behind the signature everything delimits itself. -/
theorem readBody_eq_bind (limits : Limits) :
    ∃ rest : Read Image, readBody limits = (readSignature >>= fun _ => rest) ∧
      SelfDelimiting rest := by
  have hvarint := Varint.varint_codec.selfDelimiting
  rw [readBody, readCounts, readHeader, bind_assoc, bind_assoc]
  refine ⟨_, rfl, ?_⟩
  apply SelfDelimiting.bind
  · exact byte_selfDelimiting.bind fun v => .check
      (byte_selfDelimiting.bind fun flags => .check hvarint)
  · intro globals
    apply SelfDelimiting.bind
    · exact .check (hvarint.bind fun count => .check (.pure (globals, count)))
    · intro counts
      exact (readTable_selfDelimiting counts.2 []).bind fun units =>
        hvarint.bind fun length => .here fun start => (take_selfDelimiting length).bind fun _ =>
          .pure (Image.mk counts.1 units start (start + length))

theorem read_of_readBody_error {limits : Limits} {bytes : List UInt8} {e : LoadError}
    {c : Cursor} (h : readBody limits ⟨0, bytes⟩ = .error e c) :
    read limits bytes = .error e := by
  rw [read, Cursor.ofBytes, h]

/-- All bytes of an accepted image are read, and none that come after it. -/
theorem readBody_append {limits : Limits} {bytes : List UInt8} {image : Image}
    (h : read limits bytes = .ok image) (more : List UInt8) :
    ∃ parsed, readBody limits ⟨0, bytes ++ more⟩ = .ok parsed ⟨bytes.length, more⟩ := by
  obtain ⟨f, rfl, hf, -⟩ := read_eq_ok_iff.mp h
  refine ⟨_, (readBody_follows limits _ _ _ _).mpr
    ⟨f.bytes, more, rfl, ⟨f, rfl, hf.toFramed, rfl⟩, ?_⟩⟩
  rw [Nat.zero_add]

theorem readSignature_of_short (pos : Nat) {bytes : List UInt8}
    (h : bytes.length < signature.length) :
    readSignature ⟨pos, bytes⟩ = .error .badMagic ⟨pos, bytes⟩ := by
  have htake : Cursor.take signature.length ⟨pos, bytes⟩ = .error .unexpectedEnd ⟨pos, bytes⟩ := by
    rw [Cursor.take, if_neg (Nat.not_le_of_lt h)]
  rw [readSignature, htake]

/-- What is left of an accepted image is cut inside its signature or behind it. -/
theorem read_of_cut {limits : Limits} {bytes cut : List UInt8} {image : Image}
    (h : read limits bytes = .ok image) (hcut : CutFrom cut bytes) :
    read limits cut =
      .error (if cut.length < signature.length then .badMagic else .unexpectedEnd) := by
  obtain ⟨body, hbody, hdelimiting⟩ := readBody_eq_bind limits
  obtain ⟨parsed, hread⟩ := readBody_append h []
  rw [hbody, List.append_nil] at hread
  obtain ⟨_, c, hsignature, hparsed⟩ := bind_eq_ok_iff.mp hread
  obtain ⟨_, tail, rfl, rfl, rfl⟩ := (readSignature_follows _ _ _ _).mp hsignature
  rcases hcut.append with hinside | ⟨part, rfl, hbehind⟩
  · have hshort := hinside.length_lt
    have herror : readBody limits ⟨0, cut⟩ = .error .badMagic ⟨0, cut⟩ := by
      rw [hbody]
      exact bind_of_error (readSignature_of_short 0 hshort)
    rw [if_pos hshort]
    exact read_of_readBody_error herror
  · have hlong : ¬ (signature ++ part).length < signature.length := by simp
    obtain ⟨field, rest, rfl, hend, hneeds⟩ := hdelimiting _ _ _ _ hparsed
    obtain rfl : rest = [] := (congrArg Cursor.rest hend).symm
    rw [List.append_nil] at hbehind
    obtain ⟨c, hc⟩ := hneeds.cut part hbehind
    have hok : readSignature ⟨0, signature ++ part⟩ = .ok () ⟨0 + signature.length, part⟩ :=
      readSignature_follows.read_append rfl part
    have herror : readBody limits ⟨0, signature ++ part⟩ = .error .unexpectedEnd c := by
      rw [hbody, bind_of_ok hok, hc]
    rw [if_neg hlong]
    exact read_of_readBody_error herror

/-- Bytes after an accepted image are noticed before anything that the image says. -/
theorem read_append_of_ne_nil {limits : Limits} {bytes more : List UInt8} {image : Image}
    (h : read limits bytes = .ok image) (hmore : more ≠ []) :
    read limits (bytes ++ more) = .error .trailingBytes := by
  obtain ⟨parsed, hread⟩ := readBody_append h more
  have hrest : (Cursor.mk bytes.length more).atEnd = false := by
    simpa [Cursor.atEnd] using hmore
  rw [read, Cursor.ofBytes, hread]
  simp [hrest]

/-- Damage to an accepted image is reported as what it is: whatever is left of it, from its
start on, has no signature or ends too early, and anything added to it trails. -/
theorem damaged_image_is_reported {limits : Limits} {bytes : List UInt8} {image : Image}
    (h : read limits bytes = .ok image) :
    (∀ cut, cut <+: bytes → cut ≠ bytes →
      (4 ≤ cut.length → read limits cut = .error .unexpectedEnd) ∧
        (cut.length < 4 → read limits cut = .error .badMagic)) ∧
    ∀ more, more ≠ [] → read limits (bytes ++ more) = .error .trailingBytes := by
  refine ⟨?_, fun more hmore => read_append_of_ne_nil h hmore⟩
  intro cut hstart hne
  have hread := read_of_cut h ⟨hstart, hne⟩
  have hlen : signature.length = 4 := rfl
  rw [hlen] at hread
  constructor
  · intro hlong
    rw [hread, if_neg (Nat.not_lt.mpr hlong)]
  · intro hshort
    rw [hread, if_pos hshort]

/-- The image of one unit is cut in the unit's hash, cut in its signature, and extended. -/
theorem damaged_unit_is_reported :
    read {} (signature ++ [1, 0, 3, 1, 8, 7, 6, 5, 4, 3, 2, 1, 19, 2, 2, 0, 0]) =
        .ok ⟨3, [⟨⟨0x0102030405060708⟩, 19, 2⟩], 19, 21⟩ ∧
      read {} (signature ++ [1, 0, 3, 1, 8, 7, 6, 5]) = .error .unexpectedEnd ∧
      read {} [0x53, 0x54, 0x52] = .error .badMagic ∧
      read {} (signature ++ [1, 0, 3, 1, 8, 7, 6, 5, 4, 3, 2, 1, 19, 2, 2, 0, 0] ++ [0]) =
        .error .trailingBytes := by
  have hread : read {} (signature ++ [1, 0, 3, 1, 8, 7, 6, 5, 4, 3, 2, 1, 19, 2, 2, 0, 0]) =
      .ok ⟨3, [⟨⟨0x0102030405060708⟩, 19, 2⟩], 19, 21⟩ := rfl
  obtain ⟨hcut, hmore⟩ := damaged_image_is_reported hread
  exact ⟨hread, (hcut _ (by decide) (by decide)).1 (by decide),
    (hcut _ (by decide) (by decide)).2 (by decide), hmore [0] (by decide)⟩

end Image

end ScriptCore
