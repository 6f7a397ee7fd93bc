import Mathlib.Logic.Relation
import ScriptCore.Proofs.Access.Writes
import ScriptCore.Proofs.Arithmetic.Words
import ScriptCore.Proofs.Dictionary.Lookup
import ScriptCore.Proofs.Host.Elements

/-!
# Values that reach small integers only

A value reaches what stands in it, and through handles what stands in host storage. It is
confined when every integer that it reaches fits in 32 bits, and no slice does whose
elements need not. Reading from confined values gives confined values. Writing confined
values, in whatever order and through whatever handles, keeps confined what was so.
-/

namespace ScriptCore

/-- A field as a value that leads to what the field stands for. -/
def Field.handle : Field → Value
  | .value v => v
  | .slice b => .native (.slice b)
  | .slot s => .native (.slot s)

/-- The value is no integer and no slice that could leave 32 bits. -/
def Value.Fits : Value → Prop
  | .int n => Width.w32.InRange n
  | .native (.slice b) => b.elem ≠ .u32 ∧ b.elem ≠ .i64
  | _ => True

namespace Host

/-- What stands directly in a value: the items of an array, the keys and contents of a
table, what a live host value holds, and the fields of a record. -/
def Holds (h : Host) : Value → Value → Prop
  | .array items, x => x ∈ items
  | .hash table, x => ∃ entry ∈ table.entries, x = entry.1.toValue ∨ x = entry.2
  | .native (.slot r), x => h.slot? r = some x
  | .native (.record r), x => ∃ entry ∈ (h.record r).entries, x = entry.2.handle
  | _, _ => False

/-- What stands in a value at any depth, the value itself included. -/
def Reaches (h : Host) : Value → Value → Prop :=
  Relation.ReflTransGen h.Holds

/-- All integers within reach fit in 32 bits, and no slice within reach has elements that
do not. -/
structure Confined (h : Host) (v : Value) : Prop where
  ints : ∀ n, h.Reaches v (.int n) → Width.w32.InRange n
  slices : ∀ b, h.Reaches v (.native (.slice b)) → b.elem ≠ .u32 ∧ b.elem ≠ .i64

variable {h h' : Host} {v x : Value}

/-- To confine a value it is enough to name values that fit and hold each other only. -/
theorem confined_of_closed {G : Value → Prop}
    (hG : ∀ v, G v → v.Fits ∧ ∀ x, h.Holds v x → G x) (hv : G v) : h.Confined v := by
  have hreach : ∀ x, h.Reaches v x → G x := by
    intro x hx
    induction hx with
    | refl => exact hv
    | tail _ hholds ih => exact (hG _ ih).2 _ hholds
  constructor
  · intro n hn
    exact (hG _ (hreach _ hn)).1
  · intro b hb
    exact (hG _ (hreach _ hb)).1

theorem Confined.fits (hv : h.Confined v) : v.Fits := by
  cases v with
  | int n => exact hv.ints n .refl
  | native handle =>
      cases handle with
      | slice b => exact hv.slices b .refl
      | _ => trivial
  | _ => trivial

theorem Confined.of_holds (hv : h.Confined v) (hx : h.Holds v x) : h.Confined x := by
  constructor
  · intro n hn
    exact hv.ints n (.head hx hn)
  · intro b hb
    exact hv.slices b (.head hx hb)

theorem confined_iff_holds :
    h.Confined v ↔ v.Fits ∧ ∀ x, h.Holds v x → h.Confined x := by
  constructor
  · intro hv
    exact ⟨hv.fits, fun x => hv.of_holds⟩
  · rintro ⟨hfits, hholds⟩
    apply confined_of_closed (G := fun u => u = v ∨ h.Confined u)
    · rintro u (rfl | hu)
      · exact ⟨hfits, fun x hx => .inr (hholds x hx)⟩
      · exact ⟨hu.fits, fun x hx => .inr (hu.of_holds hx)⟩
    · exact .inl rfl

/-! ## Value by value -/

theorem confined_iff_fits (hleaf : ∀ x, ¬ h.Holds v x) : h.Confined v ↔ v.Fits := by
  rw [confined_iff_holds]
  exact and_iff_left fun x hx => absurd hx (hleaf x)

@[simp] theorem confined_null : h.Confined .null :=
  (confined_iff_fits fun _ => id).mpr trivial

@[simp] theorem confined_float {y : Float} : h.Confined (.float y) :=
  (confined_iff_fits fun _ => id).mpr trivial

@[simp] theorem confined_str {s : String} : h.Confined (.str s) :=
  (confined_iff_fits fun _ => id).mpr trivial

theorem confined_int {n : Int64} : h.Confined (.int n) ↔ Width.w32.InRange n :=
  confined_iff_fits fun _ => id

theorem confined_slice {b : BufferRef} :
    h.Confined (.native (.slice b)) ↔ b.elem ≠ .u32 ∧ b.elem ≠ .i64 :=
  confined_iff_fits fun _ => id

theorem confined_array {items : List Value} :
    h.Confined (.array items) ↔ ∀ x ∈ items, h.Confined x := by
  simp [confined_iff_holds (v := .array items), Value.Fits, Holds]

theorem confined_hash {table : Table} :
    h.Confined (.hash table) ↔
      ∀ entry ∈ table.entries, h.Confined entry.1.toValue ∧ h.Confined entry.2 := by
  rw [confined_iff_holds]
  simp only [Value.Fits, Holds, true_and]
  constructor
  · intro hholds entry hentry
    exact ⟨hholds _ ⟨entry, hentry, .inl rfl⟩, hholds _ ⟨entry, hentry, .inr rfl⟩⟩
  · rintro hentries x ⟨entry, hentry, rfl | rfl⟩
    · exact (hentries entry hentry).1
    · exact (hentries entry hentry).2

theorem confined_slot {r : SlotRef} :
    h.Confined (.native (.slot r)) ↔ ∀ x, h.slot? r = some x → h.Confined x := by
  simp [confined_iff_holds (v := .native (.slot r)), Value.Fits, Holds]

theorem confined_record {r : RecordRef} :
    h.Confined (.native (.record r)) ↔
      ∀ entry ∈ (h.record r).entries, h.Confined entry.2.handle := by
  rw [confined_iff_holds]
  simp only [Value.Fits, Holds, true_and]
  constructor
  · intro hholds entry hentry
    exact hholds _ ⟨entry, hentry, rfl⟩
  · rintro hentries x ⟨entry, hentry, rfl⟩
    exact hentries entry hentry

/-! ## Changes of host storage -/

/-- What a change of host storage has put into a host value or a field. -/
inductive Stored (h h' : Host) : Value → Prop
  | slot {r : SlotRef} {x : Value} (held : h'.slot? r = some x) (new : h.slot? r ≠ some x) :
      Stored h h' x
  | field {r : RecordRef} {entry : String × Field} (attached : entry ∈ (h'.record r).entries)
      (new : entry ∉ (h.record r).entries) : Stored h h' entry.2.handle

/-- Values that are confined before a change of host storage are so after it. -/
def KeepsConfined (h h' : Host) : Prop :=
  ∀ v, h.Confined v → h'.Confined v

theorem KeepsConfined.refl (h : Host) : h.KeepsConfined h :=
  fun _ hv => hv

theorem KeepsConfined.trans {h'' : Host} (hfirst : h.KeepsConfined h')
    (hsecond : h'.KeepsConfined h'') : h.KeepsConfined h'' :=
  fun v hv => hsecond v (hfirst v hv)

/-- It is enough that what was stored is confined, in the old storage or the new. -/
theorem keepsConfined_of_stored
    (hstored : ∀ x, Stored h h' x → h.Confined x ∨ h'.Confined x) : h.KeepsConfined h' := by
  intro v hv
  apply confined_of_closed (G := fun u => h.Confined u ∨ h'.Confined u)
  · rintro u (hu | hu)
    · -- Storage that is as it was leads to values that were confined.
      refine ⟨hu.fits, fun x hx => ?_⟩
      cases u with
      | array items => exact .inl (hu.of_holds hx)
      | hash table => exact .inl (hu.of_holds hx)
      | native handle =>
          cases handle with
          | slice b => exact absurd hx id
          | slot r =>
              by_cases hold : h.slot? r = some x
              · exact .inl (hu.of_holds hold)
              · exact hstored x (.slot hx hold)
          | record r =>
              obtain ⟨entry, hentry, rfl⟩ := hx
              by_cases hold : entry ∈ (h.record r).entries
              · exact .inl (hu.of_holds ⟨entry, hold, rfl⟩)
              · exact hstored _ (.field hentry hold)
      | _ => exact absurd hx id
    · exact ⟨hu.fits, fun x hx => .inr (hu.of_holds hx)⟩
  · exact .inl hv

theorem slot?_setSlot {r t : SlotRef} (ht : (h.setSlot r v).slot? t = some x) :
    x = v ∨ h.slot? t = some x := by
  rw [slot?, setSlot, modifySlot, List.getElem?_modify] at ht
  rw [slot?]
  cases hs : h.slots[t.index]? with
  | none => simp [hs] at ht
  | some s =>
      simp only [hs, Option.map_eq_map, Option.map_some] at ht ⊢
      by_cases heq : r.index = t.index
      · simp only [heq, if_true] at ht
        split at ht
        · exact .inl (Option.some.inj ht).symm
        · contradiction
      · simp only [heq, if_false] at ht
        exact .inr ht

theorem mem_record_attach {r t : RecordRef} {name : String} {field : Field}
    {entry : String × Field} (ht : entry ∈ ((h.attach r name field).record t).entries) :
    entry = (name, field) ∨ entry ∈ (h.record t).entries := by
  rw [record, attach, List.getElem?_modify] at ht
  rw [record]
  cases hs : h.records[t.index]? with
  | none =>
      rw [hs] at ht
      contradiction
  | some fields =>
      simp only [hs, Option.map_eq_map, Option.map_some, Option.getD_some] at ht
      split at ht
      · exact Dictionary.mem_insert ht
      · exact .inr ht

theorem keepsConfined_setSlot {r : SlotRef} (hv : h.Confined v) :
    h.KeepsConfined (h.setSlot r v) := by
  apply keepsConfined_of_stored
  intro x hx
  cases hx with
  | slot held new =>
      rcases slot?_setSlot held with rfl | hold
      · exact .inl hv
      · exact absurd hold new
  | field attached new => exact absurd attached new

theorem keepsConfined_attach {r : RecordRef} {name : String} {field : Field}
    (hfield : h.Confined field.handle) : h.KeepsConfined (h.attach r name field) := by
  apply keepsConfined_of_stored
  intro x hx
  cases hx with
  | slot held new => exact absurd held new
  | field attached new =>
      rcases mem_record_attach attached with rfl | hold
      · exact .inl hfield
      · exact absurd hold new

/-- What buffers contain plays no part. -/
theorem keepsConfined_setBuffer {r : BufferRef} {b : Buffer} :
    h.KeepsConfined (h.setBuffer r b) := by
  apply keepsConfined_of_stored
  intro x hx
  cases hx with
  | slot held new => exact absurd held new
  | field attached new => exact absurd attached new

theorem keepsConfined_settle {passed : List SlotRef} (hv : h.Confined v)
    (hpassed : ∀ r ∈ passed, h.Confined (.native (.slot r))) :
    h.KeepsConfined (h.settle v passed) := by
  fun_induction h.settle v passed with
  | case1 => exact .refl h
  | case2 r => exact keepsConfined_setSlot hv
  | case3 r next rest ih =>
      have hkeeps := ih fun t ht => hpassed t (List.mem_cons_of_mem r ht)
      have hnext : h.Confined (.native (.slot next)) :=
        hpassed next (List.mem_cons_of_mem r List.mem_cons_self)
      exact hkeeps.trans (keepsConfined_setSlot (hkeeps _ hnext))

/-! ## Reading -/

/-- All that is met on the way along aliases is confined. -/
theorem confined_trail {fuel : Nat} {passed : List SlotRef} {w : Value} (hv : h.Confined v)
    (htrail : h.trail fuel v = .ok (passed, w)) :
    (∀ r ∈ passed, h.Confined (.native (.slot r))) ∧ h.Confined w := by
  fun_induction h.trail fuel v generalizing passed with
  | case1 => contradiction
  | case2 => contradiction
  | case3 fuel r inner hinner ih =>
      obtain ⟨⟨passed', w'⟩, htail, heq⟩ := exists_of_map_eq_ok htrail
      obtain ⟨rfl, rfl⟩ := Prod.mk.inj heq
      obtain ⟨hpassed, hw⟩ := ih (hv.of_holds hinner) htail
      refine ⟨?_, hw⟩
      intro t ht
      rcases List.mem_cons.mp ht with rfl | hlater
      · exact hv
      · exact hpassed t hlater
  | case4 =>
      obtain ⟨rfl, rfl⟩ := Prod.mk.inj (Except.ok.inj htrail)
      exact ⟨nofun, hv⟩

theorem confined_resolve {w : Value} (hv : h.Confined v) (hresolve : h.resolve v = .ok w) :
    h.Confined w := by
  obtain ⟨⟨passed, w'⟩, hfollow, rfl⟩ := exists_of_map_eq_ok hresolve
  exact (confined_trail hv hfollow).2

/-- The elements of all slices but those of `u32` and `i64` fit in 32 bits. -/
theorem confined_readElement {r : BufferRef} {n : Int64}
    (hr : h.Confined (.native (.slice r))) (hread : h.readElement r n = .ok v) :
    h.Confined v := by
  obtain ⟨b, i, x, hb, -, hget, rfl⟩ := readElement_eq_ok_iff.mp hread
  obtain ⟨s, -, -, -, helem⟩ := buffer?_eq_some_iff.mp hb
  have hcontains := Buffer.contains_of_get? hget
  obtain ⟨hu32, hi64⟩ := confined_slice.mp hr
  rw [confined_int, Width.InRange]
  rw [helem] at hcontains
  cases hr : r.elem with
  | u32 => exact absurd hr hu32
  | i64 => exact absurd hr hi64
  | _ =>
      rw [hr] at hcontains
      simp only [Element.Contains, Element.signed, Element.bits, if_true, if_false,
        Bool.false_eq_true] at hcontains
      simp only [Width.bits]
      omega

theorem confined_readMember {r : RecordRef} {name : String}
    (hr : h.Confined (.native (.record r))) (hread : h.readMember r name = .ok v) :
    h.Confined v := by
  rw [readMember] at hread
  cases hfield : (h.record r).get? name with
  | none =>
      rw [hfield] at hread
      obtain rfl := Except.ok.inj hread
      exact confined_null
  | some field =>
      obtain ⟨entry, hentry, rfl⟩ := Dictionary.mem_of_find hfield
      have hhandle := confined_record.mp hr entry hentry
      rw [hfield] at hread
      cases hkind : entry.2 with
      | value w =>
          rw [hkind] at hread hhandle
          obtain rfl := Except.ok.inj hread
          exact hhandle
      | slice b =>
          rw [hkind] at hread hhandle
          obtain rfl := Except.ok.inj hread
          exact hhandle
      | slot s =>
          rw [hkind] at hread hhandle
          dsimp only at hread
          split at hread
          · rename_i w hw
            obtain rfl := Except.ok.inj hread
            exact confined_slot.mp hhandle w hw
          · contradiction

end Host

namespace Access

variable {h : Host} {target key value : Value}

theorem confined_readIndexAt {v : Value} (htarget : h.Confined target)
    (hread : readIndexAt h target key = .ok v) : h.Confined v := by
  cases target with
  | array items =>
      cases key with
      | int n =>
          dsimp only [readIndexAt] at hread
          split at hread
          · rename_i x hx
            obtain rfl := Except.ok.inj hread
            obtain ⟨i, -, hi⟩ := Option.bind_eq_some_iff.mp hx
            exact Host.confined_array.mp htarget x (List.mem_of_getElem? hi)
          · contradiction
      | _ => contradiction
  | hash table =>
      obtain ⟨k, -, rfl⟩ := exists_of_map_eq_ok hread
      cases hget : table.get? k with
      | none => exact Host.confined_null
      | some x =>
          obtain ⟨entry, hentry, rfl⟩ := Dictionary.mem_of_find hget
          exact (Host.confined_hash.mp htarget entry hentry).2
  | str s =>
      cases key with
      | int n =>
          dsimp only [readIndexAt] at hread
          split at hread
          · rename_i b hb
            obtain rfl := Except.ok.inj hread
            have hbyte := b.toNat_lt
            have hsmall : (Int64.ofNat b.toNat).toInt = b.toNat :=
              Int64.toInt_ofNat_of_lt (by omega)
            rw [Host.confined_int, Width.InRange, hsmall]
            simp only [Width.bits]
            omega
          · contradiction
      | _ => contradiction
  | native handle =>
      cases handle with
      | slice r =>
          cases key with
          | int n => exact Host.confined_readElement htarget hread
          | _ => contradiction
      | slot r => contradiction
      | record r =>
          cases key with
          | str name => exact Host.confined_readMember htarget hread
          | _ => contradiction
  | _ => contradiction

/-- What is read out of a confined value is confined. -/
theorem confined_readIndex {v : Value} (htarget : h.Confined target)
    (hread : readIndex h target key = .ok v) : h.Confined v := by
  rw [readIndex] at hread
  split at hread
  · rename_i w hw
    exact confined_readIndexAt (Host.confined_resolve htarget hw) (raising_eq_ok_iff.mp hread)
  · contradiction

/-! ## Writing -/

theorem confined_vivify {v : Value} (hv : h.Confined v) : h.Confined (vivify v) := by
  cases v with
  | null => exact Host.confined_hash.mpr nofun
  | _ => exact hv

theorem confined_writeMember {h' : Host} {r : RecordRef} {name : String}
    (hvalue : h.Confined value) (hw : h.writeMember r name value = .ok h') :
    h.KeepsConfined h' := by
  rcases Host.writeMember_eq_ok_iff.mp hw with ⟨t, -, -, rfl⟩ | ⟨-, rfl⟩
  · exact Host.keepsConfined_setSlot hvalue
  · exact Host.keepsConfined_attach hvalue

theorem confined_writeIndexAt {q : Place} (htarget : h.Confined target) (hkey : h.Confined key)
    (hvalue : h.Confined value) (hw : writeIndexAt ⟨target, h⟩ key value = .ok q) :
    h.KeepsConfined q.host ∧ h.Confined q.target := by
  cases written_of_writeIndexAt hw with
  | item position inside =>
      refine ⟨.refl h, Host.confined_array.mpr ?_⟩
      intro x hx
      rcases List.mem_or_eq_of_mem_set hx with hold | rfl
      · exact Host.confined_array.mp htarget x hold
      · exact hvalue
  | appended position =>
      refine ⟨.refl h, Host.confined_array.mpr ?_⟩
      intro x hx
      rcases List.mem_append.mp hx with hold | hnew
      · exact Host.confined_array.mp htarget x hold
      · obtain rfl := List.mem_singleton.mp hnew
        exact hvalue
  | entry isKey =>
      refine ⟨.refl h, Host.confined_hash.mpr ?_⟩
      intro entry hentry
      rcases Dictionary.mem_insert hentry with rfl | hold
      · exact ⟨(Key.toValue_of_ofValue isKey).symm ▸ hkey, hvalue⟩
      · exact Host.confined_hash.mp htarget entry hold
  | element stored =>
      obtain ⟨b, i, -, -, -, rfl⟩ := Host.writeElement_eq_ok_iff.mp stored
      exact ⟨Host.keepsConfined_setBuffer, htarget⟩
  | member stored => exact ⟨confined_writeMember hvalue stored, htarget⟩

/-- Writing a confined value under a confined key inside a confined value keeps all that. -/
theorem confined_writeIndex {q : Place} (htarget : h.Confined target) (hkey : h.Confined key)
    (hvalue : h.Confined value) (hw : writeIndex key value ⟨target, h⟩ = .ok () q) :
    h.KeepsConfined q.host ∧ q.host.Confined q.target := by
  rw [writeIndex, write] at hw
  dsimp only at hw
  split at hw
  · split at hw
    · contradiction
    · rename_i passed v hfollow
      obtain ⟨hpassed, hv⟩ := Host.confined_trail htarget hfollow
      split at hw
      · contradiction
      · rename_i edited hedit
        obtain ⟨hkeeps, hedited⟩ := confined_writeIndexAt (confined_vivify hv) hkey hvalue hedit
        obtain ⟨-, rfl⟩ := EStateM.Result.ok.inj hw
        have hsettled := Host.keepsConfined_settle (hkeeps _ hedited)
          fun r hr => hkeeps _ (hpassed r hr)
        have hall := hkeeps.trans hsettled
        exact ⟨hall, hall _ htarget⟩
  · split at hw
    · contradiction
    · rename_i edited hedit
      obtain ⟨-, rfl⟩ := EStateM.Result.ok.inj hw
      obtain ⟨hkeeps, hedited⟩ :=
        confined_writeIndexAt (confined_vivify htarget) hkey hvalue hedit
      exact ⟨hkeeps, hkeeps _ hedited⟩

end Access

end ScriptCore
