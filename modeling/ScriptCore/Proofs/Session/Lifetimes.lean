import ScriptCore.Proofs.Access.Subscripts
import ScriptCore.Proofs.Session.Moves

/-!
# Lifetimes of host storage

Host names own buffers and host values, and handles do not. In every session the owners that
storage counts are the names that are bound to it. So an access through a handle finds the
storage gone exactly when no name is left, and storage that is gone does not come back.
Records are not owned: they stay as long as there are handles.
-/

namespace ScriptCore

/-! ## Owners and moves -/

namespace Host

variable {h : Host}

theorem ledger_addBuffer (b : Buffer) :
    (h.addBuffer b).2.ledger =
      { h.ledger with
        elements := h.ledger.elements ++ [b.elem]
        bufferOwners := h.ledger.bufferOwners ++ [1] } := by
  simp only [ledger, addBuffer, List.map_append, List.map_cons, List.map_nil]

theorem ledger_retainBuffer {r : BufferRef} :
    (h.retainBuffer r).ledger =
      { h.ledger with bufferOwners := h.ledger.bufferOwners.modify r.index (· + 1) } :=
  ledger_modifyBuffer (fun _ _ => rfl) fun _ => rfl

theorem ledger_retainSlot {r : SlotRef} :
    (h.retainSlot r).ledger =
      { h.ledger with slotOwners := h.ledger.slotOwners.modify r.index (· + 1) } :=
  ledger_modifySlot fun _ => rfl

theorem ledger_addSlot (v : Value) :
    (h.addSlot v).2.ledger =
      { h.ledger with slotOwners := h.ledger.slotOwners ++ [1] } := by
  simp only [ledger, addSlot, List.map_append, List.map_cons, List.map_nil]

theorem ledger_addRecord :
    h.addRecord.2.ledger = { h.ledger with records := h.ledger.records + 1 } := by
  simp only [ledger, addRecord, List.length_append, List.length_cons, List.length_nil]

end Host

namespace Session

theorem ledger_releasedBuffer (s : Session) (name : String) :
    (s.releasedBuffer name).ledger =
      { s.host.ledger with
        bufferOwners := (s.buffers.get? name).elim s.host.ledger.bufferOwners fun r =>
          s.host.ledger.bufferOwners.modify r.index (· - 1) } := by
  rw [releasedBuffer]
  cases s.buffers.get? name with
  | none => rfl
  | some r => exact Host.ledger_modifyBuffer (fun _ _ => rfl) fun _ => rfl

theorem ledger_releasedSlot (s : Session) (name : String) :
    (s.releasedSlot name).ledger =
      { s.host.ledger with
        slotOwners := (s.slots.get? name).elim s.host.ledger.slotOwners fun r =>
          s.host.ledger.slotOwners.modify r.index (· - 1) } := by
  rw [releasedSlot]
  cases s.slots.get? name with
  | none => rfl
  | some r => exact Host.ledger_modifySlot fun _ => rfl

/-- The owners of storage are the names that are bound to it. -/
structure Accounted (s : Session) : Prop where
  buffers : Balanced BufferRef.index s.buffers s.host.ledger.bufferOwners
  elements : ∀ entry ∈ s.buffers.entries,
    s.host.ledger.elements[entry.2.index]? = some entry.2.elem
  slots : Balanced SlotRef.index s.slots s.host.ledger.slotOwners
  records : ∀ entry ∈ s.records.entries, entry.2.index < s.host.ledger.records

theorem accounted_start (width : Width) : (start width).Accounted :=
  ⟨.empty, nofun, .empty, nofun⟩

variable {s s' : Session}

namespace Accounted

theorem congr (hs : s.Accounted) (hbuffers : s'.buffers = s.buffers) (hslots : s'.slots = s.slots)
    (hrecords : s'.records = s.records) (hledger : s'.host.ledger = s.host.ledger) :
    s'.Accounted := by
  constructor <;> simp only [hbuffers, hslots, hrecords, hledger]
  case buffers => exact hs.buffers
  case elements => exact hs.elements
  case slots => exact hs.slots
  case records => exact hs.records

/-- A name is bound to a buffer that has one owner more than there were names. -/
theorem bindBuffer (hs : s.Accounted) {host : Host} {elements : List Element} {owners : List Nat}
    {r : BufferRef} (name : String) (hbuffers : Balanced BufferRef.index s.buffers owners)
    (hr : r.index < owners.length)
    (hledger : host.ledger =
      { s.host.ledger with elements, bufferOwners := owners.modify r.index (· + 1) })
    (helements : ∀ entry ∈ s.buffers.entries, elements[entry.2.index]? = some entry.2.elem)
    (helem : elements[r.index]? = some r.elem) :
    ({ s with host }.bindBuffer name r).Accounted := by
  constructor <;> simp only [Session.bindBuffer, ledger_releasedBuffer, hledger]
  case buffers => exact hbuffers.bind hr
  case elements =>
    intro entry hentry
    rcases Dictionary.mem_insert hentry with rfl | hold
    · exact helem
    · exact helements entry hold
  case slots => exact hs.slots
  case records => exact hs.records

theorem newBuffer (hs : s.Accounted) (name : String) (content : Buffer) :
    ({ s with host := (s.host.addBuffer content).2 }.bindBuffer name
      (s.host.addBuffer content).1).Accounted := by
  have howners : (s.host.addBuffer content).1.index = s.host.ledger.bufferOwners.length :=
    (List.length_map _).symm
  have helements : (s.host.addBuffer content).1.index = s.host.ledger.elements.length :=
    (List.length_map _).symm
  apply hs.bindBuffer name hs.buffers.grow
  case hr =>
    rw [howners, List.length_append]
    exact Nat.lt_succ_self _
  case hledger => rw [Host.ledger_addBuffer, howners, modify_concat]
  case helements =>
    intro entry hentry
    have helem := hs.elements entry hentry
    rw [List.getElem?_append_left (List.getElem?_eq_some_iff.mp helem).1]
    exact helem
  case helem =>
    rw [helements, List.getElem?_concat_length]
    rfl

theorem cloneBuffer (hs : s.Accounted) {name : String} (copy : String) {r : BufferRef}
    (held : s.buffers.get? name = some r) :
    ({ s with host := s.host.retainBuffer r }.bindBuffer copy r).Accounted := by
  have hentry := Dictionary.get?_eq_some_iff.mp held
  exact hs.bindBuffer copy hs.buffers (hs.buffers.lt_of_get? held) Host.ledger_retainBuffer
    hs.elements (hs.elements _ hentry)

theorem dropBuffer (hs : s.Accounted) (name : String) : (s.unbindBuffer name).Accounted := by
  constructor <;> simp only [unbindBuffer, ledger_releasedBuffer]
  case buffers => exact hs.buffers.unbind
  case elements => exact fun entry hentry => hs.elements entry (Dictionary.mem_erase hentry)
  case slots => exact hs.slots
  case records => exact hs.records

/-- A name is bound to a host value that has one owner more than there were names. -/
theorem bindSlot (hs : s.Accounted) {host : Host} {owners : List Nat} {r : SlotRef} (name : String)
    (hslots : Balanced SlotRef.index s.slots owners) (hr : r.index < owners.length)
    (hledger : host.ledger =
      { s.host.ledger with slotOwners := owners.modify r.index (· + 1) }) :
    ({ s with host }.bindSlot name r).Accounted := by
  constructor <;> simp only [Session.bindSlot, ledger_releasedSlot, hledger]
  case buffers => exact hs.buffers
  case elements => exact hs.elements
  case slots => exact hslots.bind hr
  case records => exact hs.records

theorem newSlot (hs : s.Accounted) (name : String) (v : Value) :
    ({ s with host := (s.host.addSlot v).2 }.bindSlot name (s.host.addSlot v).1).Accounted := by
  have howners : (s.host.addSlot v).1.index = s.host.ledger.slotOwners.length :=
    (List.length_map _).symm
  apply hs.bindSlot name hs.slots.grow
  case hr =>
    rw [howners, List.length_append]
    exact Nat.lt_succ_self _
  case hledger => rw [Host.ledger_addSlot, howners, modify_concat]

theorem cloneSlot (hs : s.Accounted) {name : String} (copy : String) {r : SlotRef}
    (held : s.slots.get? name = some r) :
    ({ s with host := s.host.retainSlot r }.bindSlot copy r).Accounted :=
  hs.bindSlot copy hs.slots (hs.slots.lt_of_get? held) Host.ledger_retainSlot

theorem dropSlot (hs : s.Accounted) (name : String) : (s.unbindSlot name).Accounted := by
  constructor <;> simp only [unbindSlot, ledger_releasedSlot]
  case buffers => exact hs.buffers
  case elements => exact hs.elements
  case slots => exact hs.slots.unbind
  case records => exact hs.records

theorem newRecord (hs : s.Accounted) (name : String) :
    { s with
      host := s.host.addRecord.2
      records := s.records.insert name s.host.addRecord.1 }.Accounted := by
  constructor <;> simp only [Host.ledger_addRecord]
  case buffers => exact hs.buffers
  case elements => exact hs.elements
  case slots => exact hs.slots
  case records =>
    intro entry hentry
    rcases Dictionary.mem_insert hentry with rfl | hold
    · exact Nat.lt_succ_self _
    · exact Nat.lt_succ_of_lt (hs.records entry hold)

end Accounted

theorem Move.accounted {loaded : Option String} {log : List ElementWrite}
    (h : s.Move loaded log s') (hs : s.Accounted) : s'.Accounted := by
  cases h with
  | content rewritten =>
      obtain ⟨vars, host, hupdates, rfl⟩ := rewritten
      exact hs.congr rfl rfl rfl hupdates.ledger
  | newBuffer name content => exact hs.newBuffer name content
  | cloneBuffer copy held => exact hs.cloneBuffer copy held
  | dropBuffer name => exact hs.dropBuffer name
  | newSlot name v => exact hs.newSlot name v
  | cloneSlot copy held => exact hs.cloneSlot copy held
  | dropSlot name => exact hs.dropSlot name
  | newRecord name => exact hs.newRecord name
  | dropRecord name =>
      refine ⟨hs.buffers, hs.elements, hs.slots, ?_⟩
      exact fun entry hentry => hs.records entry (Dictionary.mem_erase hentry)
  | functions registry => exact hs.congr rfl rfl rfl rfl
  | context machine registry held like updated => exact hs.congr rfl rfl rfl updated.ledger
  | load name read => exact hs.congr rfl rfl rfl rfl

end Session

/-! ## Accesses through handles -/

namespace Access

/-- Every access to the value finds storage gone, and changes nothing. -/
structure Dangles (h : Host) (target : Value) : Prop where
  reads_index : ∀ key, readIndex h target key = .error (.raised .dangling)
  reads_field : ∀ name, readField h target name = .error (.raised .dangling)
  counts : count h target = .error (.raised .dangling)
  writes_index : ∀ key value,
    writeIndex key value ⟨target, h⟩ = .error (.raised .dangling) ⟨target, h⟩
  writes_field : ∀ name value,
    writeField name value ⟨target, h⟩ = .error (.raised .dangling) ⟨target, h⟩

/-- Every access to an alias of `t` is the access to `v`, which `t` holds. -/
structure Forwards (h : Host) (t : SlotRef) (v : Value) : Prop where
  reads_index : ∀ key, readIndex h (.native (.slot t)) key = readIndex h v key
  reads_field : ∀ name, readField h (.native (.slot t)) name = readField h v name
  counts : count h (.native (.slot t)) = count h v
  writes_index : ∀ key value, writeIndex key value ⟨.native (.slot t), h⟩ =
    throughAlias t h (writeIndex key value ⟨v, h⟩)
  writes_field : ∀ name value, writeField name value ⟨.native (.slot t), h⟩ =
    throughAlias t h (writeField name value ⟨v, h⟩)

variable {h : Host} {t : SlotRef} {v : Value}

theorem dangles_of_slot? (ht : h.slot? t = none) : Dangles h (.native (.slot t)) := by
  have hfollow := Host.follow_of_slot?_eq_none ht
  have hresolve : h.resolve (.native (.slot t)) = .error (.raised .dangling) := by
    rw [Host.resolve, hfollow]
    rfl
  constructor
  case reads_index =>
    intro key
    rw [readIndex, hresolve]
  case reads_field =>
    intro name
    rw [readField, hresolve]
  case counts => rw [count, hresolve]
  case writes_index =>
    intro key value
    simp only [writeIndex, write, hfollow]
  case writes_field =>
    intro name value
    simp only [writeField, write, hfollow]

theorem forwards_of_slot? (ht : h.slot? t = some v) : Forwards h t v := by
  have hresolve := Host.resolve_slot ht
  constructor
  case reads_index =>
    intro key
    rw [readIndex, readIndex, hresolve]
  case reads_field =>
    intro name
    rw [readField, readField, hresolve]
  case counts => rw [count, count, hresolve]
  case writes_index => exact fun key value => write_slot _ ht
  case writes_field => exact fun name value => write_slot _ ht

/-- How a write on the value `target` ends that comes to an edit of host storage. -/
def ended (target : Value) (h : Host) :
    Except ScriptError Host → EStateM.Result Stop Place Unit
  | .ok h' => .ok () ⟨target, h'⟩
  | .error e => .error e ⟨target, h⟩

/-- Reading and writing a field of a record come to `got` and `put`. -/
structure Member (h : Host) (ρ : RecordRef) (name : String) (got : Except ScriptError Value)
    (put : Value → Except ScriptError Host) : Prop where
  reads_index : readIndex h (.native (.record ρ)) (.str name) = raising got
  reads_field : readField h (.native (.record ρ)) name = raising got
  writes_index : ∀ value, writeIndex (.str name) value ⟨.native (.record ρ), h⟩ =
    ended (.native (.record ρ)) h (put value)
  writes_field : ∀ value, writeField name value ⟨.native (.record ρ), h⟩ =
    ended (.native (.record ρ)) h (put value)

variable {ρ : RecordRef} {name : String}

theorem member_record : Member h ρ name (h.readMember ρ name) (h.writeMember ρ name) := by
  constructor
  case reads_index => rw [readIndex_of_not_isAlias id, readIndexAt]
  case reads_field =>
    rw [readField, Host.resolve_of_not_isAlias id]
    rfl
  case writes_index =>
    intro value
    rw [writeIndex, write_of_not_isAlias _ id]
    dsimp only [vivify, writeIndexAt]
    cases h.writeMember ρ name value <;> rfl
  case writes_field =>
    intro value
    rw [writeField, write_of_not_isAlias _ id]
    dsimp only [vivify, writeFieldAt]
    cases h.writeMember ρ name value <;> rfl

/-- The field stands for a host value that is gone. -/
theorem member_dangling (hmember : h.memberSlot? ρ name = some t) (ht : h.slot? t = none) :
    Member h ρ name (.error .dangling) fun _ => .error .dangling := by
  have hput : h.writeMember ρ name = fun _ => .error .dangling := by
    funext value
    rw [Host.writeMember_of_memberSlot? hmember, ht]
    rfl
  have hrecord : Member h ρ name _ _ := member_record
  rw [Host.readMember_of_memberSlot? hmember, ht, hput] at hrecord
  exact hrecord

/-- The field stands for a host value that holds `v`. -/
theorem member_slot (hmember : h.memberSlot? ρ name = some t) (ht : h.slot? t = some v) :
    Member h ρ name (.ok v) fun value => .ok (h.setSlot t value) := by
  have hput : h.writeMember ρ name = fun value => .ok (h.setSlot t value) := by
    funext value
    rw [Host.writeMember_of_memberSlot? hmember, ht]
    rfl
  have hrecord : Member h ρ name _ _ := member_record
  rw [Host.readMember_of_memberSlot? hmember, ht, hput] at hrecord
  exact hrecord

/-- The field stands for no host value. -/
theorem exists_member (hmember : h.memberSlot? ρ name = none) :
    ∃ v, Member h ρ name (.ok v) fun value => .ok (h.attach ρ name (.value value)) := by
  have hput : h.writeMember ρ name = fun value => .ok (h.attach ρ name (.value value)) :=
    funext fun value => Host.writeMember_of_memberSlot?_eq_none hmember
  obtain ⟨v, hv⟩ : ∃ v, h.readMember ρ name = .ok v := by
    rw [Host.readMember]
    cases hfield : (h.record ρ).get? name with
    | none => exact ⟨_, rfl⟩
    | some field =>
        cases field with
        | value v => exact ⟨v, rfl⟩
        | slice b => exact ⟨_, rfl⟩
        | slot t =>
            rw [Host.memberSlot?_eq_some_iff.mpr hfield] at hmember
            contradiction
  have hrecord : Member h ρ name _ _ := member_record
  rw [hv, hput] at hrecord
  exact ⟨v, hrecord⟩

end Access

namespace Session

variable {s s' : Session}

/-! ## Live storage -/

/-- A name is bound to the buffer. -/
def OwnsBuffer (s : Session) (r : BufferRef) : Prop :=
  ∃ name, s.buffers.get? name = some r

/-- A name is bound to the host value. -/
def OwnsSlot (s : Session) (r : SlotRef) : Prop :=
  ∃ name, s.slots.get? name = some r

namespace Accounted

variable {h : Host}

theorem exists_buffer?_iff (hs : s.Accounted) (hledger : h.ledger = s.host.ledger)
    (r : BufferRef) : (∃ b, h.buffer? r = some b) ↔ s.OwnsBuffer r := by
  obtain ⟨hbuffers, helements, -, -⟩ := hs
  rw [← hledger] at hbuffers helements
  constructor
  · rintro ⟨b, hb⟩
    obtain ⟨live, hlive, hpos, rfl, helem⟩ := Host.buffer?_eq_some_iff.mp hb
    have howners : h.ledger.bufferOwners[r.index]? = some live.owners := by
      simp only [Host.ledger, List.getElem?_map, hlive, Option.map_some]
    obtain ⟨name, r', hr', hindex⟩ := (hbuffers.pos_iff howners).mp hpos
    have helem' := helements _ (Dictionary.get?_eq_some_iff.mp hr')
    simp only [Host.ledger, List.getElem?_map, hindex, hlive, Option.map_some,
      Option.some.injEq] at helem'
    have hsame : r' = r := by
      obtain ⟨elem, index⟩ := r
      obtain ⟨elem', index'⟩ := r'
      obtain rfl : index' = index := hindex
      obtain rfl : elem' = elem := helem'.symm.trans helem
      rfl
    exact ⟨name, hsame ▸ hr'⟩
  · rintro ⟨name, hr⟩
    obtain ⟨n, hn⟩ : ∃ n, h.ledger.bufferOwners[r.index]? = some n :=
      ⟨_, List.getElem?_eq_getElem (hbuffers.lt_of_get? hr)⟩
    have hpos := (hbuffers.pos_iff hn).mpr ⟨name, r, hr, rfl⟩
    have helem := helements _ (Dictionary.get?_eq_some_iff.mp hr)
    simp only [Host.ledger, List.getElem?_map, Option.map_eq_some_iff] at hn
    obtain ⟨live, hlive, rfl⟩ := hn
    simp only [Host.ledger, List.getElem?_map, hlive, Option.map_some, Option.some.injEq] at helem
    exact ⟨_, Host.buffer?_eq_some_iff.mpr ⟨live, hlive, hpos, rfl, helem⟩⟩

theorem exists_slot?_iff (hs : s.Accounted) (hledger : h.ledger = s.host.ledger)
    (r : SlotRef) : (∃ v, h.slot? r = some v) ↔ s.OwnsSlot r := by
  have hslots := hs.slots
  rw [← hledger] at hslots
  constructor
  · rintro ⟨v, hv⟩
    obtain ⟨live, hlive, hpos, rfl⟩ := Host.slot?_eq_some_iff.mp hv
    have howners : h.ledger.slotOwners[r.index]? = some live.owners := by
      simp only [Host.ledger, List.getElem?_map, hlive, Option.map_some]
    obtain ⟨name, r', hr', hindex⟩ := (hslots.pos_iff howners).mp hpos
    obtain rfl := Host.index_injective hindex
    exact ⟨name, hr'⟩
  · rintro ⟨name, hr⟩
    obtain ⟨n, hn⟩ : ∃ n, h.ledger.slotOwners[r.index]? = some n :=
      ⟨_, List.getElem?_eq_getElem (hslots.lt_of_get? hr)⟩
    have hpos := (hslots.pos_iff hn).mpr ⟨name, r, hr, rfl⟩
    simp only [Host.ledger, List.getElem?_map, Option.map_eq_some_iff] at hn
    obtain ⟨live, hlive, rfl⟩ := hn
    exact ⟨_, Host.slot?_eq_some_iff.mpr ⟨live, hlive, hpos, rfl⟩⟩

end Accounted

/-- What accesses through handles find in the storage `h`, which the names of `s` own. -/
structure Tracks (s : Session) (h : Host) : Prop where
  /-- The length and the elements of a buffer are there exactly while it has an owner. -/
  slice_length : ∀ r, h.sliceLength r = .error .dangling ↔ ¬ s.OwnsBuffer r
  slice_read : ∀ r n, h.readElement r n = .error .dangling ↔ ¬ s.OwnsBuffer r
  slice_write : ∀ r n x, h.writeElement r n x = .error .dangling ↔ ¬ s.OwnsBuffer r
  /-- An alias of a host value without an owner cannot be accessed; -/
  alias_dangles : ∀ t, ¬ s.OwnsSlot t → Access.Dangles h (.native (.slot t))
  /-- while there is an owner, the access is one to what the host value holds. -/
  alias_forwards : ∀ t, s.OwnsSlot t → ∃ v, h.slot? t = some v ∧ Access.Forwards h t v
  /-- The same holds for a record field that stands for a host value. The record stays as it
  is in both cases. -/
  field_dangles : ∀ ρ name t, h.memberSlot? ρ name = some t → ¬ s.OwnsSlot t →
    Access.Member h ρ name (.error .dangling) fun _ => .error .dangling
  field_forwards : ∀ ρ name t, h.memberSlot? ρ name = some t → s.OwnsSlot t →
    ∃ v, h.slot? t = some v ∧
      Access.Member h ρ name (.ok v) (fun value => .ok (h.setSlot t value)) ∧
      ∀ value, (h.setSlot t value).records = h.records
  /-- A record can always be used: it has a count, and every field that does not stand for a
  host value without an owner can be read, and written and read back. -/
  record_counts : ∀ ρ, Access.count h (.native (.record ρ)) = .ok (h.record ρ).size
  record_usable : ∀ ρ name, ρ.index < h.records.length →
    (∀ t, h.memberSlot? ρ name = some t → s.OwnsSlot t) →
      ∃ (v : Value) (after : Value → Host),
        Access.Member h ρ name (.ok v) (fun value => .ok (after value)) ∧
          ∀ value, Access.readField (after value) (.native (.record ρ)) name = .ok value

theorem Accounted.tracks {h : Host} (hs : s.Accounted) (hledger : h.ledger = s.host.ledger) :
    s.Tracks h := by
  have hbuffer : ∀ r, h.buffer? r = none ↔ ¬ s.OwnsBuffer r := by
    intro r
    rw [← hs.exists_buffer?_iff hledger, ← Option.isSome_iff_exists, Option.not_isSome_iff_eq_none]
  have hnone : ∀ t, ¬ s.OwnsSlot t → h.slot? t = none := by
    intro t ht
    rw [← hs.exists_slot?_iff hledger] at ht
    exact Option.eq_none_iff_forall_ne_some.mpr fun v hv => ht ⟨v, hv⟩
  have hsome : ∀ t, s.OwnsSlot t → ∃ v, h.slot? t = some v :=
    fun t => (hs.exists_slot?_iff hledger t).mpr
  constructor
  case slice_length =>
    intro r
    rw [← hbuffer, Host.sliceLength]
    cases h.buffer? r <;> simp
  case slice_read =>
    intro r n
    rw [← hbuffer, Host.readElement]
    cases h.buffer? r with
    | none => simp
    | some b =>
        dsimp only
        split <;> simp
  case slice_write =>
    intro r n x
    rw [← hbuffer, Host.writeElement]
    cases h.buffer? r with
    | none => simp
    | some b =>
        dsimp only
        split
        · split <;> simp
        · simp
  case alias_dangles => exact fun t ht => Access.dangles_of_slot? (hnone t ht)
  case alias_forwards =>
    intro t ht
    obtain ⟨v, hv⟩ := hsome t ht
    exact ⟨v, hv, Access.forwards_of_slot? hv⟩
  case field_dangles =>
    exact fun ρ name t hmember ht => Access.member_dangling hmember (hnone t ht)
  case field_forwards =>
    intro ρ name t hmember ht
    obtain ⟨v, hv⟩ := hsome t ht
    exact ⟨v, hv, Access.member_slot hmember hv, fun value => rfl⟩
  case record_counts => exact fun ρ => Access.count_record h ρ
  case record_usable =>
    intro ρ name hρ howned
    cases hmember : h.memberSlot? ρ name with
    | none =>
        obtain ⟨v, hrecord⟩ := Access.exists_member hmember
        refine ⟨v, _, hrecord, fun value => ?_⟩
        rw [Access.member_record.reads_field, Host.readMember_attach_self hρ, raising]
    | some t =>
        obtain ⟨v, hv⟩ := hsome t (howned t hmember)
        refine ⟨v, _, Access.member_slot hmember hv, fun value => ?_⟩
        have hkept : (h.setSlot t value).memberSlot? ρ name = some t := hmember
        exact (Access.member_slot hkept (Host.slot?_setSlot_self hv)).reads_field

/-! ## What is gone stays gone -/

/-- No storage is lost sight of, and what has an owner had one or is new. -/
structure Grows (s s' : Session) : Prop where
  buffers : s.host.ledger.bufferOwners.length ≤ s'.host.ledger.bufferOwners.length
  slots : s.host.ledger.slotOwners.length ≤ s'.host.ledger.slotOwners.length
  records : s.host.ledger.records ≤ s'.host.ledger.records
  ownsBuffer : ∀ r, s'.OwnsBuffer r →
    s.OwnsBuffer r ∨ s.host.ledger.bufferOwners.length ≤ r.index
  ownsSlot : ∀ r, s'.OwnsSlot r → s.OwnsSlot r ∨ s.host.ledger.slotOwners.length ≤ r.index

theorem Grows.refl (s : Session) : s.Grows s :=
  ⟨Nat.le_refl _, Nat.le_refl _, Nat.le_refl _, fun _ => .inl, fun _ => .inl⟩

theorem Grows.trans {s'' : Session} (h : s.Grows s') (h' : s'.Grows s'') : s.Grows s'' := by
  refine ⟨h.buffers.trans h'.buffers, h.slots.trans h'.slots, h.records.trans h'.records, ?_, ?_⟩
  · intro r hr
    rcases h'.ownsBuffer r hr with howned | hnew
    · exact h.ownsBuffer r howned
    · exact .inr (h.buffers.trans hnew)
  · intro r hr
    rcases h'.ownsSlot r hr with howned | hnew
    · exact h.ownsSlot r howned
    · exact .inr (h.slots.trans hnew)

theorem Grows.of_ledger (hbuffers : s'.buffers = s.buffers) (hslots : s'.slots = s.slots)
    (hledger : s'.host.ledger = s.host.ledger) : s.Grows s' := by
  constructor <;> simp only [hledger, OwnsBuffer, OwnsSlot, hbuffers, hslots, Nat.le_refl]
  · exact fun r hr => .inl hr
  · exact fun r hr => .inl hr

theorem Grows.bindBuffer {host : Host} {elements : List Element} {owners : List Nat}
    {r : BufferRef} (name : String)
    (hledger : host.ledger = { s.host.ledger with elements, bufferOwners := owners })
    (hlength : s.host.ledger.bufferOwners.length ≤ owners.length)
    (hr : s.OwnsBuffer r ∨ s.host.ledger.bufferOwners.length ≤ r.index) :
    s.Grows ({ s with host }.bindBuffer name r) := by
  constructor <;>
    simp only [Session.bindBuffer, ledger_releasedBuffer, Balanced.length_released, hledger,
      Nat.le_refl]
  case buffers => exact hlength
  case ownsBuffer =>
    rintro r' ⟨other, hother⟩
    rcases Dictionary.eq_or_get?_of_get?_insert hother with ⟨-, rfl⟩ | hold
    · exact hr
    · exact .inl ⟨other, hold⟩
  case ownsSlot => exact fun r' hr' => .inl hr'

theorem Grows.unbindBuffer (name : String) : s.Grows (s.unbindBuffer name) := by
  constructor <;>
    simp only [Session.unbindBuffer, ledger_releasedBuffer, Balanced.length_released, Nat.le_refl]
  case ownsBuffer =>
    rintro r ⟨other, hother⟩
    exact .inl ⟨other, Dictionary.get?_of_get?_erase hother⟩
  case ownsSlot => exact fun r hr => .inl hr

theorem Grows.bindSlot {host : Host} {owners : List Nat} {r : SlotRef} (name : String)
    (hledger : host.ledger = { s.host.ledger with slotOwners := owners })
    (hlength : s.host.ledger.slotOwners.length ≤ owners.length)
    (hr : s.OwnsSlot r ∨ s.host.ledger.slotOwners.length ≤ r.index) :
    s.Grows ({ s with host }.bindSlot name r) := by
  constructor <;>
    simp only [Session.bindSlot, ledger_releasedSlot, Balanced.length_released, hledger,
      Nat.le_refl]
  case slots => exact hlength
  case ownsBuffer => exact fun r' hr' => .inl hr'
  case ownsSlot =>
    rintro r' ⟨other, hother⟩
    rcases Dictionary.eq_or_get?_of_get?_insert hother with ⟨-, rfl⟩ | hold
    · exact hr
    · exact .inl ⟨other, hold⟩

theorem Grows.unbindSlot (name : String) : s.Grows (s.unbindSlot name) := by
  constructor <;>
    simp only [Session.unbindSlot, ledger_releasedSlot, Balanced.length_released, Nat.le_refl]
  case ownsBuffer => exact fun r hr => .inl hr
  case ownsSlot =>
    rintro r ⟨other, hother⟩
    exact .inl ⟨other, Dictionary.get?_of_get?_erase hother⟩

theorem Move.grows {loaded : Option String} {log : List ElementWrite}
    (h : s.Move loaded log s') : s.Grows s' := by
  cases h with
  | content rewritten =>
      obtain ⟨vars, host, hupdates, rfl⟩ := rewritten
      exact .of_ledger rfl rfl hupdates.ledger
  | newBuffer name content =>
      refine .bindBuffer name (Host.ledger_addBuffer content) ?_ (.inr ?_)
      · simp
      · exact Nat.le_of_eq (List.length_map _)
  | @cloneBuffer name copy r held =>
      refine .bindBuffer copy Host.ledger_retainBuffer ?_ (.inl ⟨name, held⟩)
      exact Nat.le_of_eq (List.length_modify _ _ _).symm
  | dropBuffer name => exact .unbindBuffer name
  | newSlot name v =>
      refine .bindSlot name (Host.ledger_addSlot v) ?_ (.inr ?_)
      · simp
      · exact Nat.le_of_eq (List.length_map _)
  | @cloneSlot name copy r held =>
      refine .bindSlot copy Host.ledger_retainSlot ?_ (.inl ⟨name, held⟩)
      exact Nat.le_of_eq (List.length_modify _ _ _).symm
  | dropSlot name => exact .unbindSlot name
  | newRecord name =>
      refine ⟨?_, ?_, ?_, fun r hr => .inl hr, fun r hr => .inl hr⟩ <;>
        simp only [Host.ledger_addRecord, Nat.le_refl, Nat.le_succ]
  | dropRecord name => exact .of_ledger rfl rfl rfl
  | functions registry => exact .of_ledger rfl rfl rfl
  | context machine registry held like updated => exact .of_ledger rfl rfl updated.ledger
  | load name read => exact .of_ledger rfl rfl rfl

theorem Accounted.after (hs : s.Accounted) (steps : List Step) :
    (s.after steps).Accounted ∧ s.Grows (s.after steps) := by
  induction steps generalizing s with
  | nil => exact ⟨hs, .refl s⟩
  | cons step rest ih =>
      obtain ⟨s', hmove, vars, hperform⟩ := s.exists_move_perform step
      have hvars : s'.Rewrites [] (s.perform step).2 := ⟨vars, s'.host, .refl s'.host, hperform⟩
      obtain ⟨hrest, hgrows⟩ := ih ((Move.content hvars).accounted (hmove.accounted hs))
      exact ⟨hrest, (hmove.grows.trans (Move.content hvars).grows).trans hgrows⟩

/-- Whatever steps are performed, names stay the owners of storage. -/
theorem Accounted.performAll (hs : s.Accounted) (steps : List Step) :
    (s.performAll steps).2.Accounted ∧ s.Grows (s.performAll steps).2 := by
  rw [s.performAll_snd steps]
  exact hs.after (s.performed steps)

/-- What holds of handles in a session, now and after every further step. -/
structure Lifetimes (s : Session) : Prop where
  /-- Accesses tell whether storage has an owner, -/
  tracks : s.Tracks s.host
  /-- also those in code that is run. -/
  tracks_in_code : ∀ frame (start : StackMachine.State Stock) code t,
    start.world.host = s.host → StackMachine.Comes frame start code t → s.Tracks t.world.host
  /-- A buffer without an owner never gets one again; -/
  buffer_stays_gone : ∀ r steps later, s.OwnsBuffer r → ¬ (s.performAll steps).2.OwnsBuffer r →
    ¬ ((s.performAll steps).2.performAll later).2.OwnsBuffer r
  /-- nor does a host value. -/
  slot_stays_gone : ∀ r steps later, s.OwnsSlot r → ¬ (s.performAll steps).2.OwnsSlot r →
    ¬ ((s.performAll steps).2.performAll later).2.OwnsSlot r
  /-- A record stays, whatever becomes of its name. -/
  record_stays : ∀ name ρ steps, s.records.get? name = some ρ →
    ρ.index < (s.performAll steps).2.host.records.length

/-- Handles own nothing: whatever steps have been performed and wherever handles have been
copied, an access finds storage gone exactly when no name of the host is bound to it. -/
theorem handles_dangle_exactly_without_owner (width : Width) (steps : List Step) :
    ((start width).performAll steps).2.Lifetimes := by
  obtain ⟨hs, -⟩ := (accounted_start width).performAll steps
  generalize ((start width).performAll steps).2 = s at hs
  constructor
  case tracks => exact hs.tracks rfl
  case tracks_in_code =>
    intro frame start code t hstart hcomes
    exact hs.tracks (hcomes.ledger.trans (congrArg Host.ledger hstart))
  case buffer_stays_gone =>
    rintro r steps later ⟨name, hr⟩ hgone hback
    obtain ⟨hs', hgrows⟩ := hs.performAll steps
    obtain ⟨-, hlater⟩ := hs'.performAll later
    rcases hlater.ownsBuffer r hback with howned | hnew
    · exact hgone howned
    · have hlt := hs.buffers.lt_of_get? hr
      have hle := hgrows.buffers
      omega
  case slot_stays_gone =>
    rintro r steps later ⟨name, hr⟩ hgone hback
    obtain ⟨hs', hgrows⟩ := hs.performAll steps
    obtain ⟨-, hlater⟩ := hs'.performAll later
    rcases hlater.ownsSlot r hback with howned | hnew
    · exact hgone howned
    · have hlt := hs.slots.lt_of_get? hr
      have hle := hgrows.slots
      omega
  case record_stays =>
    intro name ρ steps hρ
    obtain ⟨entry, hentry, rfl⟩ := Dictionary.mem_of_find hρ
    obtain ⟨-, hgrows⟩ := hs.performAll steps
    exact Nat.lt_of_lt_of_le (hs.records entry hentry) hgrows.records

/-- A handle is kept while the buffer goes on under the name of a clone, and until that is
dropped. -/
example :
    let s := ((start .w64).performAll
      [⟨.storage (.newBuffer "a" (.ofInts .i8 [7])), none, none⟩,
        ⟨.storage (.bufferHandle "a"), some "h", none⟩,
        ⟨.storage (.cloneBuffer "a" "b"), none, none⟩,
        ⟨.storage (.dropBuffer "a"), none, none⟩]).2
    let s' := (s.performAll [⟨.storage (.dropBuffer "b"), none, none⟩]).2
    Access.readIndex s.host (s.valueOf "h") (.int 0) = .ok (.int 7) ∧
      Access.readIndex s'.host (s'.valueOf "h") (.int 0) = .error (.raised .dangling) :=
  ⟨rfl, rfl⟩

end Session

end ScriptCore
