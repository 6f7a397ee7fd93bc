import ScriptCore.Proofs.Image.Format
import ScriptCore.Proofs.Image.Layout

/-!
# Reading a finished draft

The image of a draft is cut into fields that spell the draft: its globals, an entry for
each unit and the code of all units, every position being where the unit's code really
starts. So it is read back whole, unless a limit is exceeded or a hash is used twice.
-/

namespace ScriptCore

namespace Cursor

@[simp] theorem length_toLittleEndian (count n : Nat) :
    (toLittleEndian count n).length = count := by
  induction count generalizing n with
  | zero => rfl
  | succ count ih => simp [toLittleEndian, ih]

theorem littleEndian_toLittleEndian (count n : Nat) :
    littleEndian (toLittleEndian count n) = n % 256 ^ count := by
  induction count generalizing n with
  | zero => simp [toLittleEndian, littleEndian, Nat.mod_one]
  | succ count ih =>
      have htail : List.foldr (fun b m => b.toNat + 256 * m) 0 (toLittleEndian count (n / 256)) =
          n / 256 % 256 ^ count := ih (n / 256)
      have hbyte : (UInt8.ofNat n).toNat = n % 256 := UInt8.toNat_ofNat'
      rw [littleEndian, toLittleEndian, List.foldr_cons, htail, hbyte, Nat.pow_succ',
        Nat.mod_mul]

/-- A word is read back from its eight bytes. -/
theorem ofNat_littleEndian_toNat (w : UInt64) :
    UInt64.ofNat (littleEndian (toLittleEndian 8 w.toNat)) = w := by
  rw [littleEndian_toLittleEndian, Nat.mod_eq_of_lt (by simpa using w.toNat_lt),
    UInt64.ofNat_toNat]

end Cursor

namespace Draft

open Image

def entryFields (base : Nat) (u : DraftUnit) (start : Nat) : EntryFields :=
  ⟨Cursor.toLittleEndian 8 u.hash.val.toNat, Varint.encode (base + start), u.params⟩

/-- The fields that the image of a draft is cut into. -/
def fields (d : Draft) : Fields where
  globals := Varint.encode d.globals
  count := Varint.encode d.units.length
  table := (d.units.zip d.starts).map fun p => entryFields d.base p.1 p.2
  length := Varint.encode d.code.length
  code := d.code

@[simp] theorem length_table (d : Draft) : d.fields.table.length = d.units.length := by
  simp [fields]

theorem bytes_fields (d : Draft) : d.fields.bytes = d.image := by
  have htable : d.fields.table.flatMap EntryFields.bytes =
      (List.zipWith (entryBytes d.base) d.units d.starts).flatten := by
    rw [← List.map_uncurry_zip_eq_zipWith, fields, List.flatMap_def, List.map_map]
    rfl
  simp only [Fields.bytes, Fields.head, htable]
  simp [fields, image, header]

/-- The table of a draft takes the room that the layout reckons with. -/
theorem codeStart_fields (d : Draft) : d.fields.codeStart = d.layoutFrom d.base := by
  have hentry : ∀ p : DraftUnit × Nat,
      (entryFields d.base p.1 p.2).bytes.length = 9 + Varint.size (d.base + p.2) := by
    intro p
    simp [entryFields, EntryFields.bytes]
    omega
  have hsnd : (d.units.zip d.starts).map Prod.snd = d.starts := List.map_snd_zip (by simp)
  have htable : (d.fields.table.flatMap EntryFields.bytes).length =
      (d.starts.map fun start => 9 + Varint.size (d.base + start)).sum := by
    conv_rhs => rw [← hsnd]
    simp only [fields, List.length_flatMap, List.map_map, Function.comp_def, hentry]
  simp only [Fields.codeStart, Fields.head, List.length_append, htable]
  simp only [fields, layoutFrom_eq, fixedLength, header, List.length_append, Varint.length_encode]
  omega

theorem length_image (d : Draft) : d.image.length = d.layoutFrom d.base + d.code.length := by
  rw [← bytes_fields, Fields.bytes, List.length_append, ← codeStart_fields]
  rfl

/-- The code of a draft starts where its table says, if the image has a 64-bit length. -/
theorem codeStart_eq_base {d : Draft} (h : d.image.length < 2 ^ 64) :
    d.fields.codeStart = d.base := by
  rw [length_image] at h
  have hroom := d.le_layoutFrom d.base
  rw [codeStart_fields]
  exact layoutFrom_base (by omega)

theorem length_bytes_fields {d : Draft} (h : d.image.length < 2 ^ 64) :
    d.fields.bytes.length = d.base + d.code.length := by
  rw [Fields.bytes, List.length_append, ← codeStart_eq_base h]
  rfl

theorem mem_table {d : Draft} {e : EntryFields} (h : e ∈ d.fields.table) :
    ∃ u ∈ d.units, ∃ s ∈ d.starts, e = entryFields d.base u s := by
  obtain ⟨⟨u, s⟩, hmem, rfl⟩ := List.mem_map.mp h
  obtain ⟨hu, hs⟩ := List.of_mem_zip hmem
  exact ⟨u, hu, s, hs, rfl⟩

theorem coherent_fields {d : Draft} (hglobals : d.globals < 2 ^ 64)
    (h : d.image.length < 2 ^ 64) : d.fields.Coherent := by
  have hlen := length_bytes_fields h
  rw [bytes_fields] at hlen
  have hroom := d.le_layoutFrom d.base
  rw [length_image] at h hlen
  refine ⟨?_, ?_, ?_, ?_, ?_, ?_⟩
  · exact Varint.isField_encode hglobals
  · exact Varint.isField_encode (by omega)
  · rw [length_table]
    exact Varint.value_encode _
  · intro e he
    obtain ⟨u, -, s, hs, rfl⟩ := mem_table he
    have hcode := le_length_code hs
    exact ⟨Cursor.length_toLittleEndian _ _, Varint.isField_encode (by omega)⟩
  · exact Varint.isField_encode (by omega)
  · exact Varint.value_encode _

theorem entry_entryFields (base : Nat) (u : DraftUnit) (start : Nat) :
    (entryFields base u start).entry = ⟨u.hash, base + start, u.params⟩ := by
  simp [entryFields, EntryFields.entry, Cursor.ofNat_littleEndian_toNat]

/-- The table spells the units in order, each at its place behind the base. -/
theorem units_fields (d : Draft) :
    d.fields.table.map EntryFields.entry =
      (d.units.zip d.starts).map fun p => ⟨p.1.hash, d.base + p.2, p.1.params⟩ := by
  simp only [fields, List.map_map, Function.comp_def, entry_entryFields]

theorem map_units_fields {γ : Type} (d : Draft) (view : UnitHash → UInt8 → γ) :
    (d.fields.table.map EntryFields.entry).map (fun e => view e.hash e.params) =
      d.units.map fun u => view u.hash u.params := by
  have hfst : (d.units.zip d.starts).map Prod.fst = d.units := List.map_fst_zip (by simp)
  conv_rhs => rw [← hfst]
  simp only [units_fields, List.map_map, Function.comp_def]

/-- The fields of a draft are valid unless a limit is exceeded or a hash is used twice. -/
theorem valid_fields_iff {d : Draft} {limits : Limits} (hglobals : d.globals < 2 ^ 64)
    (h : d.image.length < 2 ^ 32) :
    d.fields.Valid limits ↔
      d.globals ≤ limits.globals ∧ d.units.length ≤ limits.units ∧
        (d.units.map DraftUnit.hash).Nodup := by
  have hshort : d.image.length < 2 ^ 64 := by omega
  have hcoherent := coherent_fields hglobals hshort
  have hhash : d.fields.table.map (·.entry.hash) = d.units.map DraftUnit.hash := by
    rw [← map_units_fields d fun hash _ => hash, List.map_map]
    rfl
  have hvalue : Varint.value d.fields.globals = d.globals := Varint.value_encode _
  constructor
  · intro hvalid
    refine ⟨?_, ?_, ?_⟩
    · rw [← hvalue]
      exact hvalid.globals_le
    · rw [← length_table]
      exact hvalid.count_le
    · rw [← hhash]
      exact hvalid.distinct
  · rintro ⟨hle, hcount, hdistinct⟩
    refine ⟨⟨hcoherent, by rwa [hvalue], by rwa [length_table], by rwa [hhash]⟩, ?_⟩
    intro e he
    obtain ⟨u, -, s, hs, rfl⟩ := mem_table he
    have hcode := le_length_code hs
    have hlen := length_bytes_fields hshort
    have hoffset : Varint.value (entryFields d.base u s).offset = d.base + s :=
      Varint.value_encode _
    rw [codeStart_eq_base hshort, hoffset, hlen]
    rw [← bytes_fields, hlen] at h
    omega

/-- Reading the image of a draft can only find the draft's own fields. -/
theorem read_image_eq_ok_iff {d : Draft} {limits : Limits} {image : Image}
    (hglobals : d.globals < 2 ^ 64) (h : d.image.length < 2 ^ 64) :
    Image.read limits d.image = .ok image ↔
      d.fields.Valid limits ∧ d.fields.image = image := by
  rw [read_eq_ok_iff]
  constructor
  · rintro ⟨f, hbytes, hf, rfl⟩
    -- There is only one cut, so the one that reading found is the draft's own.
    obtain rfl : f = d.fields := Fields.eq_of_bytes_eq hf.toCoherent
      (coherent_fields hglobals h) (hbytes.trans d.bytes_fields.symm)
    exact ⟨hf, rfl⟩
  · rintro ⟨hvalid, rfl⟩
    exact ⟨d.fields, d.bytes_fields, hvalid, rfl⟩

theorem take_codeEnd (d : Draft) :
    d.image.take d.fields.image.codeEnd = d.fields.head ++ d.code := by
  rw [← bytes_fields, Fields.image, List.take_length]
  rfl

/-- From the position of a unit on, the image holds the code of that unit and all later ones. -/
theorem drop_take_codeEnd {d : Draft} (h : d.image.length < 2 ^ 64) {i : Nat} {e : UnitEntry}
    (he : d.fields.image.units[i]? = some e) :
    (d.image.take d.fields.image.codeEnd).drop e.offset =
      (d.units.drop i).flatMap DraftUnit.code := by
  have hstart : d.fields.head.length = d.base := codeStart_eq_base h
  rw [Fields.image, units_fields, List.getElem?_map] at he
  obtain ⟨⟨u, s⟩, hzip, rfl⟩ := Option.map_eq_some_iff.mp he
  have hs : d.starts[i]? = some s := (List.getElem?_zip_eq_some.mp hzip).2
  rw [take_codeEnd, ← hstart, List.drop_length_add_append]
  exact (drop_code_of_starts hs).2

/-- A finished draft is read back exactly when its limits are kept and its hashes distinct,
and then with its globals, its units in order and the code of each where its entry says. -/
theorem read_image_restores_draft (d : Draft) (limits : Limits) (hglobals : d.globals < 2 ^ 64)
    (hsize : d.image.length < 2 ^ 32) :
    ((∃ image, Image.read limits d.image = .ok image) ↔
      d.globals ≤ limits.globals ∧ d.units.length ≤ limits.units ∧
        (d.units.map DraftUnit.hash).Nodup) ∧
    ∀ image, Image.read limits d.image = .ok image →
      image.globals = d.globals ∧
      image.units.map (fun e => (e.hash, e.params)) =
        d.units.map (fun u => (u.hash, u.params)) ∧
      (d.image.take image.codeEnd).drop image.codeStart =
        (d.units.map DraftUnit.code).flatten ∧
      ∀ i e, image.units[i]? = some e →
        (d.image.take image.codeEnd).drop e.offset =
          ((d.units.drop i).map DraftUnit.code).flatten := by
  have hshort : d.image.length < 2 ^ 64 := by omega
  constructor
  · rw [← valid_fields_iff hglobals hsize]
    constructor
    · rintro ⟨image, hread⟩
      exact ((read_image_eq_ok_iff hglobals hshort).mp hread).1
    · intro hvalid
      exact ⟨d.fields.image, (read_image_eq_ok_iff hglobals hshort).mpr ⟨hvalid, rfl⟩⟩
  · intro image hread
    obtain ⟨-, rfl⟩ := (read_image_eq_ok_iff hglobals hshort).mp hread
    refine ⟨Varint.value_encode _, d.map_units_fields Prod.mk, ?_, ?_⟩
    · rw [take_codeEnd, ← List.flatMap_def]
      exact List.drop_left
    · intro i e he
      rw [← List.flatMap_def]
      exact drop_take_codeEnd hshort he

/-- A unit without code between two others, which starts where the last one does. -/
theorem read_image_three_units :
    let d : Draft := ⟨300, [⟨⟨7⟩, 2, [1, 2]⟩, ⟨⟨5⟩, 0, []⟩, ⟨⟨6⟩, 1, [3]⟩]⟩
    d.globals < 2 ^ 64 ∧ d.image.length < 2 ^ 32 ∧
      ∃ image, Image.read {} d.image = .ok image ∧ image.globals = 300 ∧
        ∀ e, image.units[1]? = some e → (d.image.take image.codeEnd).drop e.offset = [3] := by
  intro d
  have hglobals : d.globals < 2 ^ 64 := by decide
  have hsize : d.image.length < 2 ^ 32 := by decide +kernel
  obtain ⟨hreads, hrestores⟩ := read_image_restores_draft d {} hglobals hsize
  obtain ⟨image, hread⟩ := hreads.mpr (by decide)
  obtain ⟨hcount, -, -, hcode⟩ := hrestores image hread
  exact ⟨hglobals, hsize, image, hread, hcount, fun e he => hcode 1 e he⟩

end Draft

end ScriptCore
