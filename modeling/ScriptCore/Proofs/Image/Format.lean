import ScriptCore.Image
import ScriptCore.Proofs.Cursor.Grammar

/-!
# The image format

An image is cut into byte fields: the numbers of globals and of units, a table entry
for each unit, the length of the code and the code. A cut is valid when its numbers
agree with what they count, no hash is repeated, every unit starts in the code and the
limits are kept. Reading accepts exactly the byte strings that have a valid cut, which
is then the only one, and returns what its fields spell.
-/

namespace ScriptCore.Image

/-- A table entry as bytes: the hash, lowest byte first, the position of the code as a
varint, and the parameter count. -/
@[ext] structure EntryFields where
  hash : List UInt8
  offset : List UInt8
  params : UInt8

namespace EntryFields

def bytes (e : EntryFields) : List UInt8 :=
  e.hash ++ e.offset ++ [e.params]

/-- The entry that the fields spell. -/
def entry (e : EntryFields) : UnitEntry :=
  ⟨⟨UInt64.ofNat (Cursor.littleEndian e.hash)⟩, Varint.value e.offset, e.params⟩

structure Valid (e : EntryFields) : Prop where
  hash : e.hash.length = 8
  offset : Varint.IsField e.offset

end EntryFields

/-- The fields that an image is cut into, behind its signature, version and flags. -/
@[ext] structure Fields where
  globals : List UInt8
  count : List UInt8
  table : List EntryFields
  length : List UInt8
  code : List UInt8

namespace Fields

/-- Everything before the code. -/
def head (f : Fields) : List UInt8 :=
  signature ++ [version, 0] ++ f.globals ++ f.count ++ f.table.flatMap EntryFields.bytes
    ++ f.length

def bytes (f : Fields) : List UInt8 :=
  f.head ++ f.code

/-- The first position of the code. -/
def codeStart (f : Fields) : Nat := f.head.length

/-- The image that the fields spell. -/
def image (f : Fields) : Image where
  globals := Varint.value f.globals
  units := f.table.map EntryFields.entry
  codeStart := f.codeStart
  codeEnd := f.bytes.length

/-- The fields agree with each other: each number with what it counts. -/
structure Coherent (f : Fields) : Prop where
  globals : Varint.IsField f.globals
  count : Varint.IsField f.count
  count_eq : Varint.value f.count = f.table.length
  entries : ∀ e ∈ f.table, e.Valid
  length : Varint.IsField f.length
  length_eq : Varint.value f.length = f.code.length

/-- In addition, no hash is repeated and the limits are kept. -/
structure Framed (limits : Limits) (f : Fields) : Prop extends Coherent f where
  globals_le : Varint.value f.globals ≤ limits.globals
  count_le : f.table.length ≤ limits.units
  distinct : (f.table.map (·.entry.hash)).Nodup

/-- In addition, every unit starts in the code or at its end, at a 32-bit position. -/
structure Valid (limits : Limits) (f : Fields) : Prop extends Framed limits f where
  inside : ∀ e ∈ f.table, f.codeStart ≤ Varint.value e.offset ∧
    Varint.value e.offset ≤ f.bytes.length ∧ Varint.value e.offset < 2 ^ 32

end Fields

open Cursor

theorem readSignature_follows :
    Follows readSignature fun _ field _ => field = signature := by
  intro pos bytes u c
  have hlen : signature.length = 4 := rfl
  have htake := take_follows signature.length pos bytes
  rw [readSignature]
  split
  · rename_i taken c' hok
    obtain ⟨field, rest, rfl, ⟨rfl, hfield⟩, rfl⟩ := (htake taken c').mp hok
    split
    · rename_i hsig
      subst hsig
      constructor
      · intro h
        obtain ⟨-, rfl⟩ := EStateM.Result.ok.inj h
        exact ⟨_, rest, rfl, rfl, rfl⟩
      · rintro ⟨_, tail, hbytes, rfl, rfl⟩
        rw [List.append_cancel_left hbytes]
    · rename_i hsig
      simp only [reduceCtorEq, false_iff]
      rintro ⟨_, tail, hbytes, rfl, rfl⟩
      exact hsig (List.append_inj_left hbytes hfield)
  · rename_i e c' herror
    simp only [reduceCtorEq, false_iff]
    rintro ⟨_, tail, rfl, rfl, rfl⟩
    have := (htake signature _).mpr ⟨signature, tail, rfl, ⟨rfl, rfl⟩, rfl⟩
    rw [herror] at this
    simp at this

theorem readHeader_follows :
    Follows readHeader fun _ field n =>
      ∃ f, field = signature ++ [version, 0] ++ f ∧ Varint.IsField f ∧ Varint.value f = n := by
  refine (readSignature_follows.bind fun _ => byte_follows.bind fun v => .check
    (byte_follows.bind fun flags => .check varint_follows)).of_iff ?_
  intro pos field n
  constructor
  · rintro ⟨_, _, _, rfl, rfl, v, _, _, rfl, rfl, hv, flags, _, f, rfl, rfl, hflags, hf⟩
    obtain rfl : v = version := by simpa using hv
    obtain rfl : flags = 0 := by simpa using hflags
    exact ⟨f, by simp, hf⟩
  · rintro ⟨f, rfl, hf⟩
    exact ⟨(), signature, [version, 0] ++ f, by simp, rfl, version, [version], 0 :: f, rfl, rfl,
      by simp, 0, [0], f, rfl, rfl, by simp, hf⟩

theorem readEntry_follows :
    Follows readEntry fun _ field entry =>
      ∃ e : EntryFields, field = e.bytes ∧ e.Valid ∧ entry = e.entry := by
  refine (word_follows.bind fun hash => varint_follows.bind fun offset =>
    byte_follows.bind fun params => .pure (UnitEntry.mk ⟨hash⟩ offset params)).of_iff ?_
  intro pos field entry
  constructor
  · rintro ⟨_, h, _, rfl, ⟨hlen, rfl⟩, _, o, _, rfl, ⟨hfield, rfl⟩, p, _, _, rfl, rfl, rfl, rfl⟩
    exact ⟨⟨h, o, p⟩, by simp [EntryFields.bytes], ⟨hlen, hfield⟩, rfl⟩
  · rintro ⟨e, rfl, he, rfl⟩
    exact ⟨_, e.hash, e.offset ++ [e.params], by simp [EntryFields.bytes], ⟨he.hash, rfl⟩,
      _, e.offset, [e.params], rfl, ⟨he.offset, rfl⟩, e.params, [e.params], [], rfl, rfl, rfl, rfl⟩

/-- The table is `count` entries one after another, with hashes that are new and distinct. -/
theorem readTable_follows (count : Nat) (seen : List UnitHash) :
    Follows (readTable count seen) fun _ field units =>
      ∃ table : List EntryFields, field = table.flatMap EntryFields.bytes ∧
        table.length = count ∧ (∀ e ∈ table, e.Valid) ∧ (table.map (·.entry.hash)).Nodup ∧
        (∀ e ∈ table, e.entry.hash ∉ seen) ∧ units = table.map EntryFields.entry := by
  -- An entry joins what has been seen, so being new to that is being distinct from the rest.
  induction count generalizing seen with
  | zero =>
      refine (Follows.pure []).of_iff ?_
      intro pos field units
      constructor
      · rintro ⟨rfl, rfl⟩
        exact ⟨[], by simp⟩
      · rintro ⟨table, rfl, hlen, -, -, -, rfl⟩
        obtain rfl := List.length_eq_zero_iff.mp hlen
        simp
  | succ count ih =>
      refine (readEntry_follows.bind fun entry => .check
        ((ih (entry.hash :: seen)).bind fun rest => .pure (entry :: rest))).of_iff ?_
      intro pos field units
      constructor
      · rintro ⟨_, _, _, rfl, ⟨e, rfl, he, rfl⟩, hnew, _, _, _, rfl,
          ⟨table, rfl, hlen, hvalid, hdistinct, hunseen, rfl⟩, rfl, rfl⟩
        refine ⟨e :: table, by simp, by simp [hlen], ?_, ?_, ?_, by simp⟩
        · simpa using ⟨he, hvalid⟩
        · rw [List.map_cons, List.nodup_cons]
          refine ⟨?_, hdistinct⟩
          intro hmem
          obtain ⟨d, hd, heq⟩ := List.mem_map.mp hmem
          exact hunseen d hd (by simp [heq])
        · intro d hd
          rcases List.mem_cons.mp hd with rfl | hd
          · exact hnew
          · exact fun hmem => hunseen d hd (List.mem_cons_of_mem _ hmem)
      · rintro ⟨table, rfl, hlen, hvalid, hdistinct, hunseen, rfl⟩
        cases table with
        | nil => simp at hlen
        | cons e table =>
            rw [List.map_cons, List.nodup_cons] at hdistinct
            refine ⟨e.entry, e.bytes, table.flatMap EntryFields.bytes, by simp,
              ⟨e, rfl, hvalid e (by simp), rfl⟩, hunseen e (by simp),
              table.map EntryFields.entry, table.flatMap EntryFields.bytes, [], by simp,
              ⟨table, rfl, by simpa using hlen, ?_, hdistinct.2, ?_, rfl⟩, rfl, by simp⟩
            · intro d hd
              exact hvalid d (List.mem_cons_of_mem _ hd)
            · intro d hd hmem
              rcases List.mem_cons.mp hmem with heq | hmem
              · exact hdistinct.1 (List.mem_map.mpr ⟨d, hd, heq⟩)
              · exact hunseen d (List.mem_cons_of_mem _ hd) hmem

theorem readCounts_follows (limits : Limits) :
    Follows (readCounts limits) fun _ field counts =>
      ∃ g n, field = signature ++ [version, 0] ++ g ++ n ∧ Varint.IsField g ∧ Varint.IsField n ∧
        Varint.value g ≤ limits.globals ∧ Varint.value n ≤ limits.units ∧
        counts = (Varint.value g, Varint.value n) := by
  refine (readHeader_follows.bind fun globals => .check (varint_follows.bind fun count =>
    .check (.pure (globals, count)))).of_iff ?_
  intro pos field counts
  constructor
  · rintro ⟨_, _, _, rfl, ⟨g, rfl, hg, rfl⟩, hglobals, _, n, _, rfl, ⟨hn, rfl⟩, hunits, rfl, rfl⟩
    exact ⟨g, n, by simp, hg, hn, Nat.le_of_not_lt hglobals, Nat.le_of_not_lt hunits, rfl⟩
  · rintro ⟨g, n, rfl, hg, hn, hglobals, hunits, rfl⟩
    exact ⟨_, _, n, rfl, ⟨g, rfl, hg, rfl⟩, Nat.not_lt.mpr hglobals, _, n, [], by simp, ⟨hn, rfl⟩,
      Nat.not_lt.mpr hunits, rfl, rfl⟩

/-- Up to its end, an image is cut into fields that agree with each other. -/
theorem readBody_follows (limits : Limits) :
    Follows (readBody limits) fun pos field image =>
      ∃ f : Fields, field = f.bytes ∧ f.Framed limits ∧
        image = ⟨Varint.value f.globals, f.table.map EntryFields.entry,
          pos + f.codeStart, pos + f.bytes.length⟩ := by
  refine ((readCounts_follows limits).bind fun counts => (readTable_follows counts.2 []).bind
    fun units => varint_follows.bind fun length => .here fun start =>
      (take_follows length).bind fun _ =>
        .pure (Image.mk counts.1 units start (start + length))).of_iff ?_
  intro pos field image
  constructor
  · rintro ⟨_, _, _, rfl, ⟨g, n, rfl, hg, hn, hglobals, hunits, rfl⟩,
      _, _, _, rfl, ⟨table, rfl, hcount, hvalid, hdistinct, -, rfl⟩, _, l, _, rfl, ⟨hl, rfl⟩,
      code, _, _, rfl, ⟨rfl, hcode⟩, rfl, rfl⟩
    refine ⟨⟨g, n, table, l, code⟩, by simp [Fields.bytes, Fields.head],
      ⟨⟨hg, hn, hcount.symm, hvalid, hl, hcode.symm⟩, hglobals, hcount.trans_le hunits,
        hdistinct⟩, ?_⟩
    simp only [Fields.codeStart, Fields.bytes, Fields.head, List.length_append, hcode,
      Nat.add_assoc]
  · rintro ⟨f, rfl, hf, rfl⟩
    refine ⟨_, _, f.table.flatMap EntryFields.bytes ++ (f.length ++ (f.code ++ [])),
      by simp [Fields.bytes, Fields.head],
      ⟨f.globals, f.count, rfl, hf.globals, hf.count, hf.globals_le,
        hf.count_eq.trans_le hf.count_le, rfl⟩,
      _, f.table.flatMap EntryFields.bytes, _, rfl,
      ⟨f.table, rfl, hf.count_eq.symm, hf.entries, hf.distinct, by simp, rfl⟩,
      _, f.length, _, rfl, ⟨hf.length, rfl⟩, f.code, f.code, [], rfl,
      ⟨rfl, hf.length_eq.symm⟩, rfl, ?_⟩
    simp only [Fields.codeStart, Fields.bytes, Fields.head, List.length_append, hf.length_eq,
      Nat.add_assoc]

theorem strayUnit?_eq_none_iff (image : Image) :
    image.strayUnit? = none ↔
      ∀ e ∈ image.units, inCode image.codeStart image.codeEnd e.offset = true := by
  rw [strayUnit?, List.find?_eq_none]
  constructor
  · intro h e he
    obtain ⟨i, hi⟩ := List.mem_iff_getElem?.mp he
    simpa using h (e, i) (List.mem_zipIdx_iff_getElem?.mpr hi)
  · rintro h ⟨e, i⟩ hmem
    have he : e ∈ image.units := List.mem_of_getElem? (List.mem_zipIdx_iff_getElem?.mp hmem)
    simpa using h e he

theorem Fields.valid_iff {limits : Limits} {f : Fields} :
    f.Valid limits ↔ f.Framed limits ∧ f.image.strayUnit? = none := by
  have hinside : f.image.strayUnit? = none ↔
      ∀ e ∈ f.table, f.codeStart ≤ Varint.value e.offset ∧
        Varint.value e.offset ≤ f.bytes.length ∧ Varint.value e.offset < 2 ^ 32 := by
    simp only [strayUnit?_eq_none_iff, inCode, Bool.and_eq_true, decide_eq_true_eq, and_assoc]
    simp [Fields.image, EntryFields.entry, UInt32.size]
  rw [hinside]
  exact ⟨fun h => ⟨h.toFramed, h.inside⟩, fun h => ⟨h.1, h.2⟩⟩

/-- Reading succeeds with an image exactly when the bytes have a valid cut that spells it. -/
theorem read_eq_ok_iff {limits : Limits} {bytes : List UInt8} {image : Image} :
    read limits bytes = .ok image ↔
      ∃ f : Fields, f.bytes = bytes ∧ f.Valid limits ∧ f.image = image := by
  have hbody := readBody_follows limits 0 bytes
  have hzero : ∀ f : Fields, (⟨Varint.value f.globals, f.table.map EntryFields.entry,
      0 + f.codeStart, 0 + f.bytes.length⟩ : Image) = f.image := by
    intro f
    simp [Fields.image]
  simp only [hzero] at hbody
  rw [read, Cursor.ofBytes]
  constructor
  · intro h
    split at h
    · simp at h
    · rename_i parsed c hok
      obtain ⟨field, rest, rfl, ⟨f, rfl, hf, rfl⟩, rfl⟩ := (hbody parsed c).mp hok
      split at h
      · simp at h
      · rename_i hend
        obtain rfl : rest = [] := by simpa [Cursor.atEnd] using hend
        split at h
        · simp at h
        · rename_i hstray
          obtain rfl : f.image = image := by simpa using h
          exact ⟨f, by simp, Fields.valid_iff.mpr ⟨hf, hstray⟩, rfl⟩
  · rintro ⟨f, rfl, hf, rfl⟩
    obtain ⟨hframed, hstray⟩ := Fields.valid_iff.mp hf
    have hok := (hbody f.image ⟨f.bytes.length, []⟩).mpr
      ⟨f.bytes, [], by simp, ⟨f, rfl, hframed, rfl⟩, by simp⟩
    rw [hok]
    simp [Cursor.atEnd, hstray]

theorem EntryFields.bytes_append_inj {e d : EntryFields} {s t : List UInt8} (he : e.Valid)
    (hd : d.Valid) (h : e.bytes ++ s = d.bytes ++ t) : e = d ∧ s = t := by
  simp only [EntryFields.bytes, List.append_assoc] at h
  obtain ⟨hhash, h⟩ := List.append_inj h (he.hash.trans hd.hash.symm)
  obtain ⟨hoffset, h⟩ := he.offset.grouped.append_inj hd.offset.grouped h
  obtain ⟨hparams, h⟩ := List.cons.inj h
  exact ⟨EntryFields.ext hhash hoffset hparams, h⟩

theorem flatMap_bytes_append_inj {table other : List EntryFields} {s t : List UInt8}
    (hlen : table.length = other.length) (hvalid : ∀ e ∈ table, e.Valid)
    (hother : ∀ e ∈ other, e.Valid)
    (h : table.flatMap EntryFields.bytes ++ s = other.flatMap EntryFields.bytes ++ t) :
    table = other ∧ s = t := by
  induction table generalizing other with
  | nil =>
      obtain rfl := List.length_eq_zero_iff.mp hlen.symm
      exact ⟨rfl, h⟩
  | cons e table ih =>
      cases other with
      | nil => simp at hlen
      | cons d other =>
          simp only [List.flatMap_cons, List.append_assoc] at h
          obtain ⟨hhead, h⟩ := EntryFields.bytes_append_inj (hvalid e (by simp))
            (hother d (by simp)) h
          obtain ⟨htail, hst⟩ := ih (by simpa using hlen)
            (fun a ha => hvalid a (by simp [ha])) (fun a ha => hother a (by simp [ha])) h
          exact ⟨by rw [hhead, htail], hst⟩

/-- A byte string is cut in at most one way. -/
theorem Fields.eq_of_bytes_eq {f g : Fields} (hf : f.Coherent) (hg : g.Coherent)
    (h : f.bytes = g.bytes) : f = g := by
  simp only [Fields.bytes, Fields.head, List.append_assoc] at h
  replace h := List.append_cancel_left (List.append_cancel_left h)
  obtain ⟨hglobals, h⟩ := hf.globals.grouped.append_inj hg.globals.grouped h
  obtain ⟨hcount, h⟩ := hf.count.grouped.append_inj hg.count.grouped h
  have hlen : f.table.length = g.table.length := by
    rw [← hf.count_eq, hcount, hg.count_eq]
  obtain ⟨htable, h⟩ := flatMap_bytes_append_inj hlen hf.entries hg.entries h
  obtain ⟨hlength, hcode⟩ := hf.length.grouped.append_inj hg.length.grouped h
  exact Fields.ext hglobals hcount htable hlength hcode

/-- Reading accepts exactly the byte strings with a valid cut into fields, of which there
is then only one, and returns what that cut spells. -/
theorem read_accepts_exactly_format (limits : Limits) (bytes : List UInt8) :
    ((∃ image, read limits bytes = .ok image) ↔
      ∃! f : Fields, f.bytes = bytes ∧ f.Valid limits) ∧
    ∀ f : Fields, f.bytes = bytes → f.Valid limits → read limits bytes = .ok f.image := by
  refine ⟨⟨?_, ?_⟩, ?_⟩
  · rintro ⟨image, hread⟩
    obtain ⟨f, hbytes, hf, -⟩ := read_eq_ok_iff.mp hread
    refine ⟨f, ⟨hbytes, hf⟩, ?_⟩
    rintro g ⟨hg, hgvalid⟩
    exact Fields.eq_of_bytes_eq hgvalid.toCoherent hf.toCoherent (hg.trans hbytes.symm)
  · rintro ⟨f, ⟨hbytes, hf⟩, -⟩
    exact ⟨f.image, read_eq_ok_iff.mpr ⟨f, hbytes, hf, rfl⟩⟩
  · intro f hbytes hf
    exact read_eq_ok_iff.mpr ⟨f, hbytes, hf, rfl⟩

-- A number of globals that is written with a byte too many is read all the same.
example : (read {} [0x53, 0x54, 0x52, 0x44, 1, 0, 0x83, 0, 0, 0]).toOption =
    some ⟨3, [], 10, 10⟩ := by
  decide +kernel

end ScriptCore.Image
