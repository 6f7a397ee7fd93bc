import ScriptCore.Access
import ScriptCore.Proofs.Host.Chain
import ScriptCore.Proofs.Host.Elements

/-!
# What a write changes

A failed write leaves host storage alone, and the variable too unless it held null and
the key was no key. A write through an alias does what the same write does on the value
at the end of the chain of host values. The one exception is a record field that stands
for a host value on that chain: storing the copies back undoes the write.
-/

namespace ScriptCore

namespace Host

/-- The host value that a field of a record stands for. -/
def memberSlot? (h : Host) (r : RecordRef) (name : String) : Option SlotRef :=
  match (h.record r).get? name with
  | some (.slot t) => some t
  | _ => none

/-- The host value that a write to `w` under `key` is passed on to by a record. -/
def destination? (h : Host) (w key : Value) : Option SlotRef :=
  match w, key with
  | .native (.record r), .str name => h.memberSlot? r name
  | _, _ => none

theorem slots_of_writeElement {h h' : Host} {r : BufferRef} {n v : Int64}
    (hw : h.writeElement r n v = .ok h') : h'.slots = h.slots := by
  obtain ⟨b, i, -, -, -, rfl⟩ := writeElement_eq_ok_iff.mp hw
  rfl

section

variable {h h' : Host} {r : RecordRef} {name : String} {v : Value}

theorem memberSlot?_eq_some_iff {t : SlotRef} :
    h.memberSlot? r name = some t ↔ (h.record r).get? name = some (.slot t) := by
  rw [memberSlot?]
  cases (h.record r).get? name with
  | none => simp
  | some field => cases field <;> simp

/-- A field that stands for a host value passes the write on, while that is live; -/
theorem writeMember_of_memberSlot? {t : SlotRef} (ht : h.memberSlot? r name = some t) :
    h.writeMember r name v = (h.slot? t).elim (.error .dangling) fun _ => .ok (h.setSlot t v) := by
  rw [writeMember, memberSlot?_eq_some_iff.mp ht]
  dsimp only
  cases h.slot? t <;> rfl

/-- any other becomes a plain value. -/
theorem writeMember_of_memberSlot?_eq_none (hnone : h.memberSlot? r name = none) :
    h.writeMember r name v = .ok (h.attach r name (.value v)) := by
  rw [writeMember]
  split
  · rename_i s hfield
    exact absurd (hnone.symm.trans (memberSlot?_eq_some_iff.mpr hfield)) nofun
  · rfl

theorem writeMember_eq_ok_iff :
    h.writeMember r name v = .ok h' ↔
      (∃ t, h.memberSlot? r name = some t ∧ h.slot? t ≠ none ∧ h' = h.setSlot t v) ∨
        h.memberSlot? r name = none ∧ h' = h.attach r name (.value v) := by
  cases hmember : h.memberSlot? r name with
  | none =>
      rw [writeMember_of_memberSlot?_eq_none hmember]
      simp [eq_comm]
  | some t =>
      rw [writeMember_of_memberSlot? hmember]
      cases hheld : h.slot? t <;> simp [hheld, eq_comm]

end

end Host

namespace Access

/-! ## Values that are no aliases -/

/-- How a subscript write to a value that is no alias succeeds. -/
inductive Written (host : Host) : (target key value : Value) → Place → Prop
  | item {items : List Value} {n : Int64} {i : Nat} {value : Value} (position : n.toInt = i)
      (inside : i < items.length) :
      Written host (.array items) (.int n) value ⟨.array (items.set i value), host⟩
  | appended {items : List Value} {n : Int64} {value : Value} (position : n.toInt = items.length) :
      Written host (.array items) (.int n) value ⟨.array (items ++ [value]), host⟩
  | entry {table : Table} {key value : Value} {k : Key} (isKey : Key.ofValue key = .ok k) :
      Written host (.hash table) key value ⟨.hash (table.insert k value), host⟩
  | element {r : BufferRef} {n v : Int64} {host' : Host}
      (stored : host.writeElement r n v = .ok host') :
      Written host (.native (.slice r)) (.int n) (.int v) ⟨.native (.slice r), host'⟩
  | member {r : RecordRef} {name : String} {value : Value} {host' : Host}
      (stored : host.writeMember r name value = .ok host') :
      Written host (.native (.record r)) (.str name) value ⟨.native (.record r), host'⟩

theorem written_of_writeIndexAt {host : Host} {target key value : Value} {q : Place}
    (hw : writeIndexAt ⟨target, host⟩ key value = .ok q) : Written host target key value q := by
  cases target with
  | array items =>
      cases key with
      | int n =>
          dsimp only [writeIndexAt] at hw
          split at hw
          · rename_i i hi
            have hposition := Host.position?_eq_some_iff.mp hi
            split at hw
            · rename_i hinside
              obtain rfl := Except.ok.inj hw
              exact .item hposition hinside
            · split at hw
              · rename_i hend
                obtain rfl := Except.ok.inj hw
                exact .appended (hend ▸ hposition)
              · contradiction
          · contradiction
      | _ => contradiction
  | hash table =>
      obtain ⟨k, hk, rfl⟩ := exists_of_map_eq_ok hw
      exact .entry hk
  | native handle =>
      cases handle with
      | slice r =>
          cases key with
          | int n =>
              cases value with
              | int v =>
                  obtain ⟨host', hstored, rfl⟩ := exists_of_map_eq_ok hw
                  exact .element hstored
              | _ => contradiction
          | _ => contradiction
      | slot r => contradiction
      | record r =>
          cases key with
          | str name =>
              obtain ⟨host', hstored, rfl⟩ := exists_of_map_eq_ok hw
              exact .member hstored
          | _ => contradiction
  | _ => contradiction

/-- How a write to a value that is no alias succeeds: it gives the variable new content, or
it changes what a handle names, which is a host value only where `goal` says so. -/
inductive Edited (p : Place) (value : Value) : (goal : Option SlotRef) → Place → Prop
  | content (v : Value) (plain : p.target.tag ≠ .native) :
      Edited p value none { p with target := v }
  | storage (host : Host) (handle : p.target.tag = .native)
      (slots : host.slots = p.host.slots) : Edited p value none { p with host }
  | slot (t : SlotRef) (handle : p.target.tag = .native) :
      Edited p value (some t) { p with host := p.host.setSlot t value }

/-- Writing a field of a record, under whatever operation. -/
theorem edited_of_writeMember {p q : Place} {r : RecordRef} {name : String} {value : Value}
    (htarget : p.target = .native (.record r))
    (hw : (p.host.writeMember r name value).map (fun h => { p with host := h }) = .ok q) :
    Edited p value (p.host.memberSlot? r name) q := by
  have hhandle : p.target.tag = .native := by
    rw [htarget]
    rfl
  obtain ⟨h', hmember, rfl⟩ := exists_of_map_eq_ok hw
  rcases Host.writeMember_eq_ok_iff.mp hmember with ⟨t, ht, -, rfl⟩ | ⟨hnone, rfl⟩
  · rw [ht]
    exact .slot t hhandle
  · rw [hnone]
    exact .storage _ hhandle rfl

theorem edited_of_writeIndexAt {p q : Place} {key value : Value}
    (hw : writeIndexAt p key value = .ok q) :
    Edited p value (p.host.destination? p.target key) q := by
  obtain ⟨target, host⟩ := p
  cases written_of_writeIndexAt hw with
  | item position inside => exact .content _ nofun
  | appended position => exact .content _ nofun
  | entry isKey => exact .content _ nofun
  | element stored => exact .storage _ rfl (Host.slots_of_writeElement stored)
  | member stored => exact edited_of_writeMember rfl hw

theorem edited_of_writeFieldAt {p q : Place} {name : String} {value : Value}
    (hw : writeFieldAt p name value = .ok q) :
    Edited p value (p.host.destination? p.target (.str name)) q := by
  obtain ⟨target, host⟩ := p
  cases target with
  | hash table =>
      obtain rfl := Except.ok.inj hw
      exact .content _ nofun
  | native handle =>
      cases handle with
      | record r => exact edited_of_writeMember rfl hw
      | _ => contradiction
  | _ => contradiction

/-! ## One write -/

theorem vivify_of_ne_null {v : Value} (hv : v ≠ .null) : vivify v = v := by
  cases v with
  | null => exact absurd rfl hv
  | _ => rfl

theorem vivify_of_handle {v : Value} (hv : v.tag = .native) : vivify v = v := by
  apply vivify_of_ne_null
  rintro rfl
  contradiction

theorem tag_vivify_eq_native_iff (v : Value) : (vivify v).tag = .native ↔ v.tag = .native := by
  cases v <;> simp [vivify, Value.tag]

theorem destination?_vivify (h : Host) (v key : Value) :
    h.destination? (vivify v) key = h.destination? v key := by
  cases v <;> rfl

/-- A write to a value that is no alias is made on the vivified value itself. -/
theorem write_of_not_isAlias (edit : Place → Except ScriptError Place) {p : Place}
    (hp : ¬ p.target.IsAlias) :
    write edit p = match edit { p with target := vivify p.target } with
      | .error e => .error e { p with target := vivify p.target }
      | .ok q => .ok () q := by
  rw [write]
  split
  · rename_i r htarget
    rw [htarget] at hp
    exact absurd trivial hp
  · rfl

/-- A write to an alias is made on a copy of what its chain ends in. -/
theorem write_of_chain (edit : Place → Except ScriptError Place) {h : Host}
    {first last : SlotRef} {passed : List SlotRef} {w : Value}
    (c : h.Chain first passed last w) :
    write edit ⟨.native (.slot first), h⟩ = match edit ⟨vivify w, h⟩ with
      | .error e => .error e ⟨.native (.slot first), h⟩
      | .ok q => .ok () ⟨.native (.slot first), q.host.settle q.target passed⟩ := by
  cases hedit : edit ⟨vivify w, h⟩ with
  | error e => simp only [write, c.follow_eq, hedit]
  | ok q => simp only [write, c.follow_eq, hedit]

/-- How a write on an alias of `t` ends when the write on what `t` holds has ended: the changed
copy is stored back, or nothing has changed. -/
def throughAlias (t : SlotRef) (h : Host) :
    EStateM.Result Stop Place Unit → EStateM.Result Stop Place Unit
  | .ok _ q => .ok () ⟨.native (.slot t), q.host.setSlot t q.target⟩
  | .error e _ => .error e ⟨.native (.slot t), h⟩

/-- A write to an alias of a live host value is the write to what that holds. -/
theorem write_slot (edit : Place → Except ScriptError Place) {h : Host} {t : SlotRef} {v : Value}
    (hv : h.slot? t = some v) :
    write edit ⟨.native (.slot t), h⟩ = throughAlias t h (write edit ⟨v, h⟩) := by
  by_cases halias : v.IsAlias
  · obtain ⟨next, rfl⟩ := exists_slot_of_isAlias halias
    dsimp only [write]
    rw [Host.follow_slot hv]
    cases hfollow : h.follow (.native (.slot next)) with
    | error e => rfl
    | ok reached =>
        obtain ⟨passed, w⟩ := reached
        obtain ⟨last, hchain⟩ := Host.exists_chain_of_trail hfollow
        obtain ⟨rest, rfl⟩ := hchain.passed_eq_cons
        dsimp only [Except.map]
        cases edit ⟨vivify w, h⟩ <;> rfl
  · rw [write_of_chain edit (.stop hv halias), write_of_not_isAlias edit halias]
    dsimp only
    cases edit ⟨vivify v, h⟩ <;> rfl

/-- A failed write has changed nothing but a variable that held null, and that only when
the write to an empty table fails. -/
theorem write_error {edit : Place → Except ScriptError Place} {p q : Place} {e : Stop}
    (hw : write edit p = .error e q) :
    q = p ∨ p.target = .null ∧ raising (edit ⟨.hash .empty, p.host⟩) = .error e ∧
      q = ⟨.hash .empty, p.host⟩ := by
  rw [write] at hw
  split at hw
  · split at hw
    · exact .inl (EStateM.Result.error.inj hw).2.symm
    · split at hw
      · exact .inl (EStateM.Result.error.inj hw).2.symm
      · contradiction
  · dsimp only at hw
    split at hw
    · rename_i e' hedit
      obtain ⟨rfl, rfl⟩ := EStateM.Result.error.inj hw
      by_cases hnull : p.target = .null
      · rw [hnull] at hedit
        refine .inr ⟨hnull, congrArg raising hedit, ?_⟩
        rw [hnull]
        rfl
      · left
        rw [vivify_of_ne_null hnull]
    · contradiction

theorem removeKey_error {key v v' : Value} {e : ScriptError}
    (hw : removeKey key v = .error e v') : v' = v := by
  cases v with
  | hash table =>
      rw [removeKey] at hw
      split at hw
      · contradiction
      · exact (EStateM.Result.error.inj hw).2.symm
  | _ => exact (EStateM.Result.error.inj hw).2.symm

/-- A failed write changes no host storage. It leaves the variable as it was too, except
that a subscript write to null under what is no key leaves an empty table there. -/
theorem failed_write_keeps_place (p : Place) (key value : Value) (name : String) :
    (∀ e q, writeIndex key value p = .error e q →
      q = p ∨ p.target = .null ∧ raising (Key.ofValue key) = .error e ∧
        q = ⟨.hash .empty, p.host⟩) ∧
    (∀ e q, writeField name value p = .error e q → q = p) ∧
    (∀ e target, removeKey key p.target = .error e target → target = p.target) := by
  refine ⟨?_, ?_, fun e target hw => removeKey_error hw⟩
  · intro e q hw
    rcases write_error hw with hsame | ⟨hnull, hedit, hq⟩
    · exact .inl hsame
    · refine .inr ⟨hnull, ?_, hq⟩
      cases hkey : Key.ofValue key with
      | error e' =>
          simp only [writeIndexAt, hkey, Except.map, raising, Except.error.injEq] at hedit ⊢
          exact hedit
      | ok k => simp only [writeIndexAt, hkey, Except.map, raising, reduceCtorEq] at hedit
  · intro e q hw
    rcases write_error hw with hsame | ⟨-, hedit, -⟩
    · exact hsame
    · -- Every name is a key of the empty table.
      simp only [writeFieldAt, raising, reduceCtorEq] at hedit

/-- The position is behind the end of the array that the alias leads to. -/
theorem failed_write_keeps_aliased_array :
    ∃ e q, writeIndex (.int 5) .null
        ⟨.native (.slot ⟨0⟩), (Host.empty.addSlot (.array [.null])).2⟩ = .error e q ∧
      q = ⟨.native (.slot ⟨0⟩), (Host.empty.addSlot (.array [.null])).2⟩ :=
  ⟨_, _, rfl, ((failed_write_keeps_place _ (.int 5) .null "").1 _ _ rfl).resolve_right nofun⟩

/-- A variable that held null is not what it was after a failed subscript write. -/
theorem failed_write_vivifies_null :
    writeIndex (.float 1.5) (.int 1) ⟨.null, .empty⟩ =
        .error (.raised (.invalidKey .float)) ⟨.hash .empty, .empty⟩ ∧
      Value.hash .empty ≠ .null :=
  ⟨rfl, nofun⟩

/-! ## Writing through aliases -/

/-- What a write does through an alias at the start of a chain, compared with the same
write on the value `w` at its end. The host value that the write is passed on to, if any,
is `goal`. -/
structure ReachesEnd (h : Host) (first : SlotRef) (passed : List SlotRef) (last : SlotRef)
    (w : Value) (goal : Option SlotRef) (m : EStateM Stop Place Unit) : Prop where
  /-- Where the write on `w` fails, it fails in the same way, and changes nothing. -/
  fails : ∀ e q, m ⟨w, h⟩ = .error e q →
    m ⟨.native (.slot first), h⟩ = .error e ⟨.native (.slot first), h⟩
  /-- Null, arrays and tables are stored back changed where the chain ends. -/
  stored : w.tag ≠ .native → ∀ q, m ⟨w, h⟩ = .ok () q →
    m ⟨.native (.slot first), h⟩ =
      .ok () ⟨.native (.slot first), h.setSlot last q.target⟩
  /-- Through handles of slices and records it changes what the write on `w` changes. -/
  forwarded : w.tag = .native → (∀ t, goal = some t → t ∉ passed) →
    ∀ q, m ⟨w, h⟩ = .ok () q →
      m ⟨.native (.slot first), h⟩ = .ok () ⟨.native (.slot first), q.host⟩
  /-- What is passed on to a host value of the chain itself is lost. -/
  lost : ∀ t, goal = some t → t ∈ passed → ∀ q, m ⟨w, h⟩ = .ok () q →
    m ⟨.native (.slot first), h⟩ = .ok () ⟨.native (.slot first), h⟩

namespace Edited

variable {h : Host} {first last : SlotRef} {passed : List SlotRef} {w value : Value}
  {goal : Option SlotRef} {q : Place}

/-- New content is stored at the end of the chain. -/
theorem settle_plain (c : h.Chain first passed last w)
    (edited : Edited ⟨vivify w, h⟩ value goal q) (hplain : w.tag ≠ .native) :
    q.host.settle q.target passed = h.setSlot last q.target := by
  cases edited with
  | content v plain => exact c.settle_eq v
  | storage host handle slots => exact absurd ((tag_vivify_eq_native_iff w).mp handle) hplain
  | slot t handle => exact absurd ((tag_vivify_eq_native_iff w).mp handle) hplain

/-- Storing the copies leaves alone what was changed outside the chain. -/
theorem settle_outside (c : h.Chain first passed last w)
    (edited : Edited ⟨vivify w, h⟩ value goal q) (hhandle : w.tag = .native)
    (houtside : ∀ t, goal = some t → t ∉ passed) :
    q.host.settle q.target passed = q.host := by
  rw [vivify_of_handle hhandle] at edited
  cases edited with
  | content v plain => exact absurd hhandle plain
  | storage host handle slots => exact (c.congr slots).settle_self
  | slot t handle => rw [Host.settle_setSlot_comm (houtside t rfl), c.settle_self]

/-- Storing the copies undoes what was changed on the chain. -/
theorem settle_inside (c : h.Chain first passed last w) {t : SlotRef}
    (edited : Edited ⟨vivify w, h⟩ value (some t) q) (hinside : t ∈ passed) :
    q.host.settle q.target passed = h := by
  cases edited with
  | slot _ handle =>
      rw [Host.settle_setSlot_of_mem c.nodup hinside,
        vivify_of_handle ((tag_vivify_eq_native_iff w).mp handle), c.settle_self]

end Edited

theorem reachesEnd_write {h : Host} {first last : SlotRef} {passed : List SlotRef}
    {w value : Value} {goal : Option SlotRef} {edit : Place → Except ScriptError Place}
    (c : h.Chain first passed last w)
    (hedit : ∀ q, edit ⟨vivify w, h⟩ = .ok q → Edited ⟨vivify w, h⟩ value goal q) :
    ReachesEnd h first passed last w goal (write edit) := by
  have hdirect := write_of_not_isAlias edit (p := ⟨w, h⟩) c.not_isAlias
  have halias := write_of_chain edit c
  -- A write that succeeds on `w` is an edit, after which the copies are stored.
  have hstored : ∀ q, write edit ⟨w, h⟩ = .ok () q → Edited ⟨vivify w, h⟩ value goal q ∧
      write edit ⟨.native (.slot first), h⟩ =
        .ok () ⟨.native (.slot first), q.host.settle q.target passed⟩ := by
    intro q hok
    cases hresult : edit ⟨vivify w, h⟩ with
    | error e =>
        simp only [hresult] at hdirect
        exact absurd (hdirect.symm.trans hok) nofun
    | ok edited =>
        simp only [hresult] at hdirect halias
        obtain rfl : edited = q := (EStateM.Result.ok.inj (hdirect.symm.trans hok)).2
        exact ⟨hedit edited hresult, halias⟩
  constructor
  case fails =>
    intro e q hfail
    cases hresult : edit ⟨vivify w, h⟩ with
    | error e' =>
        simp only [hresult] at hdirect halias
        obtain ⟨rfl, -⟩ := EStateM.Result.error.inj (hdirect.symm.trans hfail)
        exact halias
    | ok edited =>
        simp only [hresult] at hdirect
        exact absurd (hdirect.symm.trans hfail) nofun
  case stored =>
    intro hplain q hok
    obtain ⟨edited, hwrite⟩ := hstored q hok
    rw [hwrite, edited.settle_plain c hplain]
  case forwarded =>
    intro hhandle houtside q hok
    obtain ⟨edited, hwrite⟩ := hstored q hok
    rw [hwrite, edited.settle_outside c hhandle houtside]
  case lost =>
    intro t hgoal hinside q hok
    obtain ⟨edited, hwrite⟩ := hstored q hok
    subst hgoal
    rw [hwrite, edited.settle_inside c hinside]

/-- Subscript and field writes through an alias are the writes on the value that its chain
of host values ends in, unless a record passes them on to the chain itself. -/
theorem write_through_alias_reaches_end {h : Host} {first last : SlotRef}
    {passed : List SlotRef} {w : Value} (hchain : h.Chain first passed last w)
    (key value : Value) (name : String) :
    ReachesEnd h first passed last w (h.destination? w key) (writeIndex key value) ∧
      ReachesEnd h first passed last w (h.destination? w (.str name))
        (writeField name value) := by
  constructor
  · apply reachesEnd_write hchain
    intro q hq
    rw [← destination?_vivify]
    exact edited_of_writeIndexAt hq
  · apply reachesEnd_write hchain
    intro q hq
    rw [← destination?_vivify]
    exact edited_of_writeFieldAt hq

/-- Over two aliases an array is extended where it is stored. -/
theorem write_through_two_aliases :
    let host : Host := ⟨[], [⟨.native (.slot ⟨1⟩), 1⟩, ⟨.array [.int 4], 1⟩], []⟩
    host.Chain ⟨0⟩ [⟨0⟩, ⟨1⟩] ⟨1⟩ (.array [.int 4]) ∧
      writeIndex (.int 1) (.int 9) ⟨.native (.slot ⟨0⟩), host⟩ =
        .ok () ⟨.native (.slot ⟨0⟩), host.setSlot ⟨1⟩ (.array [.int 4, .int 9])⟩ := by
  intro host
  have hchain : host.Chain ⟨0⟩ [⟨0⟩, ⟨1⟩] ⟨1⟩ (.array [.int 4]) :=
    .pass rfl (.stop rfl nofun)
  exact ⟨hchain,
    (write_through_alias_reaches_end hchain (.int 1) (.int 9) "").1.stored nofun _ rfl⟩

/-- A host value holds a record whose field stands for that host value. The write on the
record sets the host value; through the alias it succeeds too, and is lost. -/
theorem write_through_alias_lost :
    let host : Host :=
      ⟨[], [⟨.native (.record ⟨0⟩), 1⟩], [Dictionary.empty.insert "self" (.slot ⟨0⟩)]⟩
    host.Chain ⟨0⟩ [⟨0⟩] ⟨0⟩ (.native (.record ⟨0⟩)) ∧
      writeIndex (.str "self") (.int 7) ⟨.native (.record ⟨0⟩), host⟩ =
        .ok () ⟨.native (.record ⟨0⟩), host.setSlot ⟨0⟩ (.int 7)⟩ ∧
      writeIndex (.str "self") (.int 7) ⟨.native (.slot ⟨0⟩), host⟩ =
        .ok () ⟨.native (.slot ⟨0⟩), host⟩ ∧
      host ≠ host.setSlot ⟨0⟩ (.int 7) :=
  ⟨.stop rfl nofun, rfl, rfl, nofun⟩

end Access

end ScriptCore
