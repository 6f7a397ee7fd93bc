import ScriptCore.Proofs.Dictionary.Lookup
import ScriptCore.Proofs.Host.Replay

/-!
# Reading what was written

A field is the subscript of its name: reads and writes by field and by string end alike.
What a subscript write has stored is what the same subscript reads afterwards, through the
same target and over the same aliases. All other subscripts read as before, apart from
fields that stand for the very host value that was written. The count grows by one when
the write has made something new, and not otherwise.
-/

namespace ScriptCore

/-- Both are errors, or there is no result for the same reason. -/
def Stop.Alike : Stop → Stop → Prop
  | .raised _, .raised _ => True
  | stop, stop' => stop = stop'

theorem Stop.Alike.refl (stop : Stop) : stop.Alike stop := by
  cases stop with
  | raised e => trivial
  | _ => rfl

/-- Both computations succeed with one result or both stop alike, and in the same state. -/
def EndsAlike {σ α : Type} : EStateM.Result Stop σ α → EStateM.Result Stop σ α → Prop
  | .ok a s, .ok b t => a = b ∧ s = t
  | .error stop s, .error stop' t => stop.Alike stop' ∧ s = t
  | _, _ => False

@[simp] theorem toOption_raising {α : Type} (r : Except ScriptError α) :
    (raising r).toOption = r.toOption := by
  cases r <;> rfl

namespace Host

variable {h h' : Host} {r : RecordRef} {name other : String} {v : Value} {t : SlotRef}

theorem buffer?_setBuffer_self {r : BufferRef} {b b' : Buffer} (hb : h.buffer? r = some b)
    (helem : b'.elem = b.elem) : (h.setBuffer r b').buffer? r = some b' := by
  obtain ⟨s, hs, howners, rfl, hr⟩ := buffer?_eq_some_iff.mp hb
  refine buffer?_eq_some_iff.mpr ⟨{ s with content := b' }, ?_, howners, rfl, helem.trans hr⟩
  rw [setBuffer, modifyBuffer, List.getElem?_modify_eq, hs]
  rfl

theorem record_attach_self (hr : r.index < h.records.length) (field : Field) :
    (h.attach r name field).record r = (h.record r).insert name field := by
  rw [record, record, attach, List.getElem?_modify_eq, List.getElem?_eq_getElem hr]
  rfl

theorem readMember_attach_self (hr : r.index < h.records.length) :
    (h.attach r name (.value v)).readMember r name = .ok v := by
  rw [readMember, record_attach_self hr, Dictionary.get?_insert_self]

theorem readMember_attach_of_ne (hr : r.index < h.records.length) (hne : name ≠ other)
    (field : Field) : (h.attach r name field).readMember r other = h.readMember r other := by
  rw [readMember, readMember, record_attach_self hr, Dictionary.get?_insert_of_ne hne]
  rfl

theorem readMember_of_memberSlot? (ht : h.memberSlot? r name = some t) :
    h.readMember r name = (h.slot? t).elim (.error .dangling) .ok := by
  rw [readMember, memberSlot?_eq_some_iff.mp ht]
  dsimp only
  cases h.slot? t <;> rfl

/-- A field that does not stand for a host value does not depend on it. -/
theorem readMember_setSlot_of_ne (ht : h.memberSlot? r name ≠ some t) :
    (h.setSlot t v).readMember r name = h.readMember r name := by
  have hrecord : (h.setSlot t v).record r = h.record r := rfl
  rw [readMember, readMember, hrecord]
  split
  · rfl
  · rfl
  · rfl
  · rename_i s hfield
    have hne : t ≠ s := by
      rintro rfl
      exact ht (memberSlot?_eq_some_iff.mpr hfield)
    rw [slot?_setSlot_of_ne hne]

end Host

namespace Access

/-! ## Fields -/

theorem readFieldAt_eq_readIndexAt (h : Host) (w : Value) (name : String) :
    (readFieldAt h w name).toOption = (readIndexAt h w (.str name)).toOption := by
  cases w with
  | native handle => cases handle <;> rfl
  | _ => rfl

theorem writeFieldAt_eq_writeIndexAt (p : Place) (name : String) (value : Value) :
    (writeFieldAt p name value).toOption = (writeIndexAt p (.str name) value).toOption := by
  obtain ⟨target, host⟩ := p
  cases target with
  | native handle => cases handle <;> rfl
  | _ => rfl

/-- Edits that succeed alike are concluded alike: by storing the outcome, or by failing and
leaving the place as `p`. -/
theorem endsAlike_conclusion (p : Place) (store : Place → Place) {x y : Except ScriptError Place} :
    x.toOption = y.toOption → EndsAlike
      (match x with
        | .error e => .error (.raised e) p
        | .ok q => .ok () (store q) : EStateM.Result Stop Place Unit)
      (match y with
        | .error e => .error (.raised e) p
        | .ok q => .ok () (store q)) := by
  intro hxy
  cases x with
  | error e =>
      cases y with
      | error e' => exact ⟨trivial, rfl⟩
      | ok q => contradiction
  | ok q =>
      cases y with
      | error e => contradiction
      | ok q' =>
          obtain rfl : q = q' := Option.some.inj hxy
          exact ⟨rfl, rfl⟩

theorem endsAlike_write {edit edit' : Place → Except ScriptError Place}
    (hedit : ∀ p, (edit p).toOption = (edit' p).toOption) (p : Place) :
    EndsAlike (write edit p) (write edit' p) := by
  unfold write
  split
  · split
    · exact ⟨.refl _, rfl⟩
    · exact endsAlike_conclusion p _ (hedit _)
  · exact endsAlike_conclusion _ id (hedit _)

/-- A field of a value is what the value has under the field's name as a subscript, to read
and to write, whatever the value and wherever it leads. -/
theorem field_access_is_string_subscript (h : Host) (target value : Value) (name : String) :
    (readField h target name).toOption = (readIndex h target (.str name)).toOption ∧
      hasResult (readField h target name) = hasResult (readIndex h target (.str name)) ∧
      EndsAlike (writeField name value ⟨target, h⟩)
        (writeIndex (.str name) value ⟨target, h⟩) := by
  refine ⟨?_, ?_, ?_⟩
  · rw [readField, readIndex]
    cases h.resolve target with
    | error stop => rfl
    | ok w =>
        simp only [toOption_raising]
        exact readFieldAt_eq_readIndexAt h w name
  · rw [readField, readIndex]
    cases h.resolve target with
    | error stop => rfl
    | ok w => simp only [hasResult_raising]
  · exact endsAlike_write (fun p => writeFieldAt_eq_writeIndexAt p name value) ⟨target, h⟩

/-! ## Reading back -/

/-- A write under the key makes something new: an item behind the last one, or an entry or a
field that was not there. -/
def Creates (h : Host) : (w key : Value) → Prop
  | .array items, .int n => n.toInt = items.length
  | .hash table, key => ∃ k, Key.ofValue key = .ok k ∧ table.get? k = none
  | .native (.record r), .str name => (h.record r).get? name = none
  | _, _ => False

/-- What a subscript write means for what is read after it, from the place `q` that it has
left. Before the write the target leads to `w`. -/
structure Wrote (h : Host) (target w key value : Value) (q : Place) : Prop where
  /-- The value is read back, -/
  reads_back : (∀ r, w ≠ .native (.slice r)) → readIndex q.host q.target key = .ok value
  /-- from a buffer as the element type keeps it. -/
  reads_element : ∀ r, w = .native (.slice r) → ∃ n x, value = .int n ∧ r.elem.Reduces n x ∧
    readIndex q.host q.target key = .ok (.int x)
  /-- Every other subscript that could be read is read as before, unless it stands for the
  host value that was written. -/
  keeps : ∀ other v, other ≠ key → readIndex h target other = .ok v →
    (∀ t, h.destination? w key = some t → h.destination? w other ≠ some t) →
      readIndex q.host q.target other = .ok v
  /-- Null could be read as an empty table. -/
  keeps_null : w = .null → ∀ other k, other ≠ key → Key.ofValue other = .ok k →
    readIndex q.host q.target other = .ok .null
  /-- What stands for the host value that was written is read as written. -/
  shares : ∀ other t, h.destination? w key = some t → h.destination? w other = some t →
    readIndex q.host q.target other = .ok value
  counts : w ≠ .null → ∃ n, count h target = .ok n ∧
    (Creates h w key → count q.host q.target = .ok (n + 1)) ∧
      (¬ Creates h w key → count q.host q.target = .ok n)
  counts_null : w = .null → count q.host q.target = .ok 1

section

variable {h : Host} {w key value v : Value} {q : Place}

theorem readIndex_of_not_isAlias (hw : ¬ w.IsAlias) :
    readIndex h w key = raising (readIndexAt h w key) := by
  rw [readIndex, Host.resolve_of_not_isAlias hw]

theorem count_of_not_isAlias (hw : ¬ w.IsAlias) : count h w = raising (countAt h w) := by
  rw [count, Host.resolve_of_not_isAlias hw]

theorem readIndex_array_eq_ok_iff {items : List Value} :
    readIndex h (.array items) key = .ok v ↔
      ∃ n i, key = .int n ∧ n.toInt = (i : Nat) ∧ items[i]? = some v := by
  rw [readIndex_of_not_isAlias id, raising_eq_ok_iff]
  constructor
  · intro hread
    cases key with
    | int n =>
        dsimp only [readIndexAt] at hread
        split at hread
        · rename_i x hx
          obtain rfl := Except.ok.inj hread
          obtain ⟨i, hi, hitem⟩ := Option.bind_eq_some_iff.mp hx
          exact ⟨n, i, rfl, Host.position?_eq_some_iff.mp hi, hitem⟩
        · contradiction
    | _ => contradiction
  · rintro ⟨n, i, rfl, hi, hitem⟩
    simp only [readIndexAt, Host.position?_eq_some_iff.mpr hi, Option.bind_some, hitem]

theorem readIndex_hash_eq_ok_iff {table : Table} :
    readIndex h (.hash table) key = .ok v ↔
      ∃ k, Key.ofValue key = .ok k ∧ (table.get? k).getD .null = v := by
  rw [readIndex_of_not_isAlias id, raising_eq_ok_iff]
  constructor
  · intro hread
    exact exists_of_map_eq_ok hread
  · rintro ⟨k, hk, rfl⟩
    simp only [readIndexAt, hk, Except.map]

/-- Two positions are the same only if the subscripts are. -/
theorem eq_of_toInt_eq {m n : Int64} {i : Nat} (hm : m.toInt = i) (hn : n.toInt = i) :
    Value.int m = .int n :=
  congrArg Value.int (Int64.toInt.inj (hm.trans hn.symm))

theorem readIndex_slice_eq_ok_iff {r : BufferRef} :
    readIndex h (.native (.slice r)) key = .ok v ↔
      ∃ n, key = .int n ∧ h.readElement r n = .ok v := by
  rw [readIndex_of_not_isAlias id, raising_eq_ok_iff]
  constructor
  · intro hread
    cases key with
    | int n => exact ⟨n, rfl, hread⟩
    | _ => contradiction
  · rintro ⟨n, rfl, hread⟩
    exact hread

theorem readIndex_record_eq_ok_iff {r : RecordRef} :
    readIndex h (.native (.record r)) key = .ok v ↔
      ∃ name, key = .str name ∧ h.readMember r name = .ok v := by
  rw [readIndex_of_not_isAlias id, raising_eq_ok_iff]
  constructor
  · intro hread
    cases key with
    | str name => exact ⟨name, rfl, hread⟩
    | _ => contradiction
  · rintro ⟨name, rfl, hread⟩
    exact hread

/-- The array has got the value at one position, and is as before at the others. -/
theorem wrote_array {items items' : List Value} {n : Int64} {i : Nat} (hn : n.toInt = i)
    (hitem : items'[i]? = some value)
    (hothers : ∀ (j : Nat) x, j ≠ i → items[j]? = some x → items'[j]? = some x)
    (hlength : items'.length = if i = items.length then items.length + 1 else items.length) :
    Wrote h (.array items) (.array items) (.int n) value ⟨.array items', h⟩ := by
  constructor
  case reads_back => exact fun _ => readIndex_array_eq_ok_iff.mpr ⟨n, i, rfl, hn, hitem⟩
  case keeps =>
    intro other v hother hread _
    obtain ⟨m, j, rfl, hm, hj⟩ := readIndex_array_eq_ok_iff.mp hread
    refine readIndex_array_eq_ok_iff.mpr ⟨m, j, rfl, hm, hothers j v ?_ hj⟩
    rintro rfl
    exact hother (eq_of_toInt_eq hm hn)
  case counts =>
    have hcreates : Creates h (.array items) (.int n) ↔ i = items.length := by
      simp only [Creates, hn, Nat.cast_inj]
    refine fun _ => ⟨items.length, count_of_not_isAlias id, ?_⟩
    simp only [count_of_not_isAlias (w := .array items') id, countAt, raising_eq_ok_iff,
      Except.ok.injEq, hcreates, hlength]
    constructor
    · exact fun hend => if_pos hend
    · exact fun hend => if_neg hend
  all_goals (intros; contradiction)

theorem wrote_entry {table : Table} {k : Key} (hk : Key.ofValue key = .ok k) :
    Wrote h (.hash table) (.hash table) key value ⟨.hash (table.insert k value), h⟩ := by
  constructor
  case reads_back =>
    intro _
    refine readIndex_hash_eq_ok_iff.mpr ⟨k, hk, ?_⟩
    rw [Dictionary.get?_insert_self, Option.getD_some]
  case keeps =>
    intro other v hother hread _
    obtain ⟨l, hl, hv⟩ := readIndex_hash_eq_ok_iff.mp hread
    refine readIndex_hash_eq_ok_iff.mpr ⟨l, hl, ?_⟩
    have hne : k ≠ l := by
      rintro rfl
      exact hother ((Key.toValue_of_ofValue hl).symm.trans (Key.toValue_of_ofValue hk))
    rw [Dictionary.get?_insert_of_ne hne]
    exact hv
  case counts =>
    have hcreates : Creates h (.hash table) key ↔ ¬ table.contains k := by
      simp [Creates, hk, Dictionary.contains]
    refine fun _ => ⟨table.size, count_of_not_isAlias id, ?_⟩
    simp only [count_of_not_isAlias (w := .hash (table.insert k value)) id, countAt,
      raising_eq_ok_iff, Except.ok.injEq, hcreates, Dictionary.size_insert]
    constructor
    · exact fun hnew => if_neg hnew
    · exact fun hold => if_pos (not_not.mp hold)
  all_goals (intros; contradiction)

/-- Null becomes a table with the one entry. -/
theorem wrote_null {k : Key} (hk : Key.ofValue key = .ok k) :
    Wrote h .null .null key value ⟨.hash (Dictionary.empty.insert k value), h⟩ := by
  have hentry : Wrote h (.hash .empty) (.hash .empty) key value
      ⟨.hash (Dictionary.empty.insert k value), h⟩ := wrote_entry hk
  constructor
  case reads_back => exact fun _ => hentry.reads_back nofun
  case keeps_null =>
    intro _ other l hother hl
    apply hentry.keeps other .null hother _ nofun
    exact readIndex_hash_eq_ok_iff.mpr ⟨l, hl, rfl⟩
  case counts_null =>
    intro _
    obtain ⟨n, hn, hnew, -⟩ := hentry.counts nofun
    obtain rfl : 0 = n := Except.ok.inj hn
    exact hnew ⟨k, hk, rfl⟩
  all_goals exact nofun

theorem wrote_element {r : BufferRef} {n x : Int64} {h' : Host}
    (hstored : h.writeElement r n x = .ok h') :
    Wrote h (.native (.slice r)) (.native (.slice r)) (.int n) (.int x)
      ⟨.native (.slice r), h'⟩ := by
  obtain ⟨b, i, hb, hn, hi, rfl⟩ := Host.writeElement_eq_ok_iff.mp hstored
  have hb' : (h.setBuffer r (b.set i x)).buffer? r = some (b.set i x) :=
    Host.buffer?_setBuffer_self hb rfl
  constructor
  case reads_element =>
    rintro r ⟨rfl⟩
    obtain ⟨-, -, -, -, helem⟩ := Host.buffer?_eq_some_iff.mp hb
    have hreduces := b.elem.reduces_widen_narrow x
    rw [helem] at hreduces
    refine ⟨x, _, rfl, hreduces, ?_⟩
    rw [← helem]
    refine readIndex_slice_eq_ok_iff.mpr ⟨n, rfl, ?_⟩
    exact Host.readElement_eq_ok_iff.mpr ⟨_, i, _, hb', hn, Buffer.get?_set_self hi, rfl⟩
  case keeps =>
    intro other v hother hread _
    obtain ⟨m, rfl, helement⟩ := readIndex_slice_eq_ok_iff.mp hread
    obtain ⟨b₀, j, y, hb₀, hm, hy, rfl⟩ := Host.readElement_eq_ok_iff.mp helement
    obtain rfl := Option.some.inj (hb.symm.trans hb₀)
    have hne : i ≠ j := by
      rintro rfl
      exact hother (eq_of_toInt_eq hm hn)
    refine readIndex_slice_eq_ok_iff.mpr ⟨m, rfl, ?_⟩
    refine Host.readElement_eq_ok_iff.mpr ⟨_, j, y, hb', hm, ?_, rfl⟩
    rw [Buffer.get?_set_of_ne hne]
    exact hy
  case counts =>
    have hlength : ∀ {g : Host} {c : Buffer}, g.buffer? r = some c →
        count g (.native (.slice r)) = .ok c.length := by
      intro g c hc
      rw [count_of_not_isAlias id, raising_eq_ok_iff]
      simp only [countAt, Host.sliceLength, hc]
    refine fun _ => ⟨b.length, hlength hb, nofun, fun _ => ?_⟩
    rw [hlength hb', Buffer.length_set]
  case reads_back => exact fun hslice => absurd rfl (hslice r)
  all_goals exact nofun

theorem count_record (h : Host) (r : RecordRef) :
    count h (.native (.record r)) = .ok (h.record r).size :=
  count_of_not_isAlias id

/-- The field stands for a host value, which has got the value. -/
theorem wrote_passed_on {r : RecordRef} {name : String} {t : SlotRef}
    (ht : h.memberSlot? r name = some t) (hlive : h.slot? t ≠ none) :
    Wrote h (.native (.record r)) (.native (.record r)) (.str name) value
      ⟨.native (.record r), h.setSlot t value⟩ := by
  have hread : ∀ other, h.memberSlot? r other = some t →
      readIndex (h.setSlot t value) (.native (.record r)) (.str other) = .ok value := by
    intro other hother
    obtain ⟨v, hv⟩ := Option.ne_none_iff_exists'.mp hlive
    have hmember : (h.setSlot t value).memberSlot? r other = some t := hother
    refine readIndex_record_eq_ok_iff.mpr ⟨other, rfl, ?_⟩
    rw [Host.readMember_of_memberSlot? hmember, Host.slot?_setSlot_self hv]
    rfl
  constructor
  case reads_back => exact fun _ => hread name ht
  case keeps =>
    intro other v hother hold hdestination
    obtain ⟨other, rfl, hmember⟩ := readIndex_record_eq_ok_iff.mp hold
    refine readIndex_record_eq_ok_iff.mpr ⟨other, rfl, ?_⟩
    rw [Host.readMember_setSlot_of_ne (hdestination t ht)]
    exact hmember
  case shares =>
    intro other t' ht' hother
    obtain rfl := Option.some.inj (ht.symm.trans ht')
    cases other with
    | str other => exact hread other hother
    | _ => contradiction
  case counts =>
    refine fun _ => ⟨_, count_record h r, ?_, fun _ => count_record _ r⟩
    intro hcreates
    exact absurd (hcreates.symm.trans (Host.memberSlot?_eq_some_iff.mp ht)) nofun
  all_goals exact nofun

/-- The record itself has got the value. -/
theorem wrote_attached {r : RecordRef} {name : String} (hr : r.index < h.records.length)
    (hnone : h.memberSlot? r name = none) :
    Wrote h (.native (.record r)) (.native (.record r)) (.str name) value
      ⟨.native (.record r), h.attach r name (.value value)⟩ := by
  constructor
  case reads_back =>
    exact fun _ => readIndex_record_eq_ok_iff.mpr ⟨name, rfl, Host.readMember_attach_self hr⟩
  case keeps =>
    intro other v hother hold _
    obtain ⟨other, rfl, hmember⟩ := readIndex_record_eq_ok_iff.mp hold
    refine readIndex_record_eq_ok_iff.mpr ⟨other, rfl, ?_⟩
    have hne : name ≠ other := by
      rintro rfl
      exact hother rfl
    rw [Host.readMember_attach_of_ne hr hne]
    exact hmember
  case shares =>
    intro other t ht _
    have hmember : h.memberSlot? r name = some t := ht
    rw [hnone] at hmember
    contradiction
  case counts =>
    have hcreates : Creates h (.native (.record r)) (.str name) ↔
        ¬ (h.record r).contains name := by
      simp [Creates, Dictionary.contains]
    refine fun _ => ⟨_, count_record h r, ?_⟩
    rw [count_record, Host.record_attach_self hr, Dictionary.size_insert, hcreates]
    constructor
    · exact fun hnew => by rw [if_neg hnew]
    · exact fun hold => by rw [if_pos (not_not.mp hold)]
  case reads_element =>
    intro b hb
    cases hb
  all_goals (intros; contradiction)

/-- A subscript write on a value that is no alias. -/
theorem wrote_of_writeIndexAt (hw : ¬ w.IsAlias)
    (hrecord : ∀ r, w = .native (.record r) → r.index < h.records.length)
    (hwrite : writeIndexAt ⟨vivify w, h⟩ key value = .ok q) : Wrote h w w key value q := by
  by_cases hnull : w = .null
  · subst hnull
    cases written_of_writeIndexAt hwrite with
    | entry isKey => exact wrote_null isKey
  · rw [vivify_of_ne_null hnull] at hwrite
    cases written_of_writeIndexAt hwrite with
    | item position inside =>
        apply wrote_array position (List.getElem?_set_self inside)
        · intro j x hj hx
          rw [List.getElem?_set_ne hj.symm]
          exact hx
        · rw [List.length_set, if_neg (Nat.ne_of_lt inside)]
    | @appended items n value position =>
        apply wrote_array position List.getElem?_concat_length
        · intro j x hj hx
          rw [List.getElem?_append_left (List.getElem?_eq_some_iff.mp hx).1]
          exact hx
        · rw [List.length_append, if_pos rfl]
          rfl
    | entry isKey => exact wrote_entry isKey
    | element stored => exact wrote_element stored
    | @member r name value h' stored =>
        rcases Host.writeMember_eq_ok_iff.mp stored with ⟨t, ht, hlive, rfl⟩ | ⟨hnone, rfl⟩
        · exact wrote_passed_on ht hlive
        · exact wrote_attached (hrecord r rfl) hnone

/-! ## Reading back over aliases -/

/-- Written content is no alias, and it is a handle only where there was one. -/
theorem Written.tag_eq {target : Value} (hw : Written h target key value q) :
    q.target.tag = target.tag ∧ ¬ q.target.IsAlias := by
  cases hw <;> exact ⟨rfl, id⟩

/-- Through an alias the value at the end of its chain is read. -/
theorem readIndex_of_chain {first last : SlotRef} {passed : List SlotRef}
    (c : h.Chain first passed last w) :
    readIndex h (.native (.slot first)) key = readIndex h w key := by
  rw [readIndex, c.resolve_eq, readIndex_of_not_isAlias c.not_isAlias]

theorem count_of_chain {first last : SlotRef} {passed : List SlotRef}
    (c : h.Chain first passed last w) : count h (.native (.slot first)) = count h w := by
  rw [count, c.resolve_eq, count_of_not_isAlias c.not_isAlias]

/-- Reading a value that is no handle takes no host. -/
theorem readIndex_of_tag_ne (hw : w.tag ≠ .native) (g : Host) :
    readIndex g w key = readIndex h w key := by
  cases w with
  | native handle => exact absurd rfl hw
  | array items => cases key <;> rfl
  | str s => cases key <;> rfl
  | _ => rfl

theorem count_of_tag_ne (hw : w.tag ≠ .native) (g : Host) : count g w = count h w := by
  cases w with
  | native handle => exact absurd rfl hw
  | _ => rfl

/-- What is written to the end of a chain is read through the alias at its start as it is
read from the edited place itself. -/
theorem reads_settled {first last : SlotRef} {passed : List SlotRef} {goal : Option SlotRef}
    (c : h.Chain first passed last w) (edited : Edited ⟨vivify w, h⟩ value goal q)
    (hwritten : q.target.tag = (vivify w).tag ∧ ¬ q.target.IsAlias)
    (houtside : ∀ t, goal = some t → t ∉ passed) :
    (∀ k, readIndex (q.host.settle q.target passed) (.native (.slot first)) k =
        readIndex q.host q.target k) ∧
      count (q.host.settle q.target passed) (.native (.slot first)) = count q.host q.target := by
  cases edited with
  | content v plain =>
      have hplain : v.tag ≠ .native := fun hv => plain (hwritten.1.symm.trans hv)
      have hchain := c.setSlot_last hwritten.2
      rw [c.settle_eq v, count_of_chain hchain]
      refine ⟨?_, count_of_tag_ne hplain _⟩
      intro k
      rw [readIndex_of_chain hchain]
      exact readIndex_of_tag_ne hplain _
  | storage host handle slots =>
      have hchain := c.congr slots
      rw [vivify_of_handle ((tag_vivify_eq_native_iff w).mp handle), hchain.settle_self]
      exact ⟨fun _ => readIndex_of_chain hchain, count_of_chain hchain⟩
  | slot t handle =>
      have hchain := c.setSlot_of_notMem (v := value) (houtside t rfl)
      rw [vivify_of_handle ((tag_vivify_eq_native_iff w).mp handle), hchain.settle_self]
      exact ⟨fun _ => readIndex_of_chain hchain, count_of_chain hchain⟩

/-- Reads that give the same before and after the write tell the same of it. -/
theorem Wrote.of_reads {target : Value} {q' : Place} (hwrote : Wrote h w w key value q)
    (hbefore : (∀ k, readIndex h target k = readIndex h w k) ∧ count h target = count h w)
    (hafter : (∀ k, readIndex q'.host q'.target k = readIndex q.host q.target k) ∧
      count q'.host q'.target = count q.host q.target) : Wrote h target w key value q' := by
  obtain ⟨hread, hcount⟩ := hbefore
  obtain ⟨hread', hcount'⟩ := hafter
  constructor <;> simp only [hread, hcount, hread', hcount']
  case reads_back => exact hwrote.reads_back
  case reads_element => exact hwrote.reads_element
  case keeps => exact hwrote.keeps
  case keeps_null => exact hwrote.keeps_null
  case shares => exact hwrote.shares
  case counts => exact hwrote.counts
  case counts_null => exact hwrote.counts_null

/-- What a subscript write has stored is read back under its key, and nothing else that could
be read has changed but what stands for the same host value. Where a record passes the write
on to a host value, that must not be one of those that lead from the target to the record. -/
theorem subscript_write_is_read_back {target : Value}
    (hwrite : writeIndex key value ⟨target, h⟩ = .ok () q)
    (hrecord : ∀ r, h.resolve target = .ok (.native (.record r)) → r.index < h.records.length)
    (hapart : ∀ passed w t, h.follow target = .ok (passed, w) →
      h.destination? w key = some t → t ∉ passed) :
    ∃ w, h.resolve target = .ok w ∧ Wrote h target w key value q := by
  by_cases halias : target.IsAlias
  · obtain ⟨first, rfl⟩ := exists_slot_of_isAlias halias
    cases hfollow : h.follow (.native (.slot first)) with
    | error e => simp only [writeIndex, write, hfollow, reduceCtorEq] at hwrite
    | ok reached =>
        obtain ⟨passed, w⟩ := reached
        obtain ⟨last, hchain⟩ := Host.exists_chain_of_trail hfollow
        rw [writeIndex, write_of_chain _ hchain] at hwrite
        split at hwrite
        · contradiction
        · rename_i edited hedit
          obtain ⟨-, rfl⟩ := EStateM.Result.ok.inj hwrite
          have hwrote := wrote_of_writeIndexAt hchain.not_isAlias
            (fun r hr => hrecord r (hr ▸ hchain.resolve_eq)) hedit
          have hreads := reads_settled hchain (edited_of_writeIndexAt hedit)
            (written_of_writeIndexAt hedit).tag_eq ?_
          · refine ⟨w, hchain.resolve_eq, hwrote.of_reads ?_ hreads⟩
            exact ⟨fun _ => readIndex_of_chain hchain, count_of_chain hchain⟩
          · intro t ht
            exact hapart passed w t hfollow ((destination?_vivify h w key).symm.trans ht)
  · have hresolve := Host.resolve_of_not_isAlias (h := h) halias
    rw [writeIndex, write_of_not_isAlias _ halias] at hwrite
    split at hwrite
    · contradiction
    · rename_i edited hedit
      obtain ⟨-, rfl⟩ := EStateM.Result.ok.inj hwrite
      refine ⟨target, hresolve, wrote_of_writeIndexAt halias ?_ hedit⟩
      exact fun r hr => hrecord r (hr ▸ hresolve)

end

/-- A record behind an alias has two fields that stand for one host value. What is written to
the first is read from both, and the third field is left alone. -/
theorem write_to_shared_field_is_read_back :
    let fields : Record :=
      ((Dictionary.empty.insert "a" (.slot ⟨1⟩)).insert "b" (.slot ⟨1⟩)).insert "c"
        (.value (.int 5))
    let host : Host := ⟨[], [⟨.native (.record ⟨0⟩), 1⟩, ⟨.int 4, 1⟩], [fields]⟩
    ∃ q, writeIndex (.str "a") (.int 9) ⟨.native (.slot ⟨0⟩), host⟩ = .ok () q ∧
      (∀ r, host.resolve (.native (.slot ⟨0⟩)) = .ok (.native (.record r)) →
        r.index < host.records.length) ∧
      (∀ passed w t, host.follow (.native (.slot ⟨0⟩)) = .ok (passed, w) →
        host.destination? w (.str "a") = some t → t ∉ passed) ∧
      readIndex q.host q.target (.str "a") = .ok (.int 9) ∧
      readIndex q.host q.target (.str "b") = .ok (.int 9) ∧
      readIndex q.host q.target (.str "c") = .ok (.int 5) ∧
      count q.host q.target = .ok 3 := by
  intro fields host
  have hfollow : host.follow (.native (.slot ⟨0⟩)) = .ok ([⟨0⟩], .native (.record ⟨0⟩)) := rfl
  have hwrite : writeIndex (.str "a") (.int 9) ⟨.native (.slot ⟨0⟩), host⟩ =
      .ok () ⟨.native (.slot ⟨0⟩), host.setSlot ⟨1⟩ (.int 9)⟩ := rfl
  have hrecord : ∀ r, host.resolve (.native (.slot ⟨0⟩)) = .ok (.native (.record r)) →
      r.index < host.records.length := by
    rintro r ⟨rfl⟩
    decide
  have hapart : ∀ passed w t, host.follow (.native (.slot ⟨0⟩)) = .ok (passed, w) →
      host.destination? w (.str "a") = some t → t ∉ passed := by
    intro passed w t hpassed ht
    obtain ⟨rfl, rfl⟩ := Prod.mk.inj (Except.ok.inj (hfollow.symm.trans hpassed))
    obtain rfl : ⟨1⟩ = t := Option.some.inj ht
    decide
  obtain ⟨w, hresolve, hwrote⟩ := subscript_write_is_read_back hwrite hrecord hapart
  obtain rfl : .native (.record ⟨0⟩) = w := Except.ok.inj hresolve
  obtain ⟨n, hn, -, hcount⟩ := hwrote.counts nofun
  obtain rfl : 3 = n := Except.ok.inj hn
  refine ⟨_, hwrite, hrecord, hapart, hwrote.reads_back nofun, ?_, ?_, hcount nofun⟩
  · exact hwrote.shares (.str "b") ⟨1⟩ rfl rfl
  · exact hwrote.keeps (.str "c") (.int 5) (by simp) rfl fun t _ => nofun

end Access

end ScriptCore
