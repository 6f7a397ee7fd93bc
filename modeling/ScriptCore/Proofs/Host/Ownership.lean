import ScriptCore.Proofs.Access.Writes
import ScriptCore.Proofs.Dictionary.Lookup
import ScriptCore.Proofs.Machine.Writes

/-!
# Owners of host storage

Names own host storage, and storage counts its owners. The count is right while every change
of the names is a change of the counts: then storage is live exactly while a name is bound to
it. Reads and writes of content, from wherever they are made, leave the counts alone.
-/

namespace ScriptCore

theorem map_modify {α β : Type} {l : List α} {i : Nat} {f : α → α} {g : α → β} {f' : β → β}
    (h : ∀ a, l[i]? = some a → g (f a) = f' (g a)) :
    (l.modify i f).map g = (l.map g).modify i f' := by
  apply List.ext_getElem?
  intro k
  simp only [List.getElem?_map, List.getElem?_modify]
  by_cases hk : i = k
  · subst hk
    cases hl : l[i]? with
    | none => rfl
    | some a => simp [h a hl]
  · simp [hk]

theorem modify_concat {α : Type} (l : List α) (a : α) (f : α → α) :
    (l ++ [a]).modify l.length f = l ++ [f a] := by
  rw [List.modify_eq_set_getElem?]
  simp

/-! ## Counting names -/

/-- Every name is bound to a place that exists, and every place has as many owners as names. -/
structure Balanced {ρ : Type} (place : ρ → Nat) (names : Dictionary String ρ)
    (owners : List Nat) : Prop where
  bound : ∀ entry ∈ names.entries, place entry.2 < owners.length
  owned : ∀ k n, owners[k]? = some n → names.entries.countP (place ·.2 = k) = n

namespace Balanced

variable {ρ : Type} {place : ρ → Nat} {names : Dictionary String ρ} {owners : List Nat}
  {name : String} {r : ρ} {k n : Nat}

theorem empty : Balanced place (.empty : Dictionary String ρ) [] :=
  ⟨nofun, nofun⟩

theorem lt_of_get? (h : Balanced place names owners) (hr : names.get? name = some r) :
    place r < owners.length :=
  h.bound (name, r) (Dictionary.get?_eq_some_iff.mp hr)

/-- A place has an owner exactly while a name is bound to it. -/
theorem pos_iff (h : Balanced place names owners) (hn : owners[k]? = some n) :
    0 < n ↔ ∃ name r, names.get? name = some r ∧ place r = k := by
  rw [← h.owned k n hn, List.countP_pos_iff]
  simp only [Dictionary.get?_eq_some_iff, decide_eq_true_eq, Prod.exists]

/-- A new place has no owner yet. -/
theorem grow (h : Balanced place names owners) : Balanced place names (owners ++ [0]) := by
  constructor
  · intro entry hentry
    rw [List.length_append]
    exact Nat.lt_add_right _ (h.bound entry hentry)
  · intro k n hn
    rw [List.getElem?_append] at hn
    split at hn
    · exact h.owned k n hn
    · rename_i hnew
      obtain rfl : n = 0 := List.mem_singleton.mp (List.mem_of_getElem? hn)
      refine List.countP_eq_zero.mpr fun entry hentry hplace => hnew ?_
      rw [← of_decide_eq_true hplace]
      exact h.bound entry hentry

/-- One owner more for the place that a new entry is bound to. -/
theorem exists_of_retained (name : String)
    (hn : (owners.modify (place r) (· + 1))[k]? = some n) :
    ∃ m, owners[k]? = some m ∧ n = m + [(name, r)].countP (place ·.2 = k) := by
  rw [List.getElem?_modify] at hn
  obtain ⟨m, hm, rfl⟩ := Option.map_eq_some_iff.mp hn
  refine ⟨m, hm, ?_⟩
  by_cases hk : place r = k <;> simp [hk]

/-- One owner fewer for the place that an old entry was bound to. -/
theorem exists_of_released (name : String) {old : Option ρ}
    (hn : (old.elim owners fun r => owners.modify (place r) (· - 1))[k]? = some n) :
    ∃ m, owners[k]? = some m ∧
      n = m - (old.toList.map (name, ·)).countP (place ·.2 = k) := by
  cases old with
  | none => exact ⟨n, hn, rfl⟩
  | some r =>
      rw [Option.elim_some, List.getElem?_modify] at hn
      obtain ⟨m, hm, rfl⟩ := Option.map_eq_some_iff.mp hn
      refine ⟨m, hm, ?_⟩
      by_cases hk : place r = k <;> simp [hk]

theorem length_released (old : Option ρ) :
    (old.elim owners fun r => owners.modify (place r) (· - 1)).length = owners.length := by
  cases old with
  | none => rfl
  | some r => exact List.length_modify _ _ _

/-- A name becomes an owner in place of what it owned before. -/
theorem bind (h : Balanced place names owners) (hr : place r < owners.length) :
    Balanced place (names.insert name r)
      ((names.get? name).elim (owners.modify (place r) (· + 1)) fun old =>
        (owners.modify (place r) (· + 1)).modify (place old) (· - 1)) := by
  constructor
  · intro entry hentry
    rw [length_released, List.length_modify]
    rcases Dictionary.mem_insert hentry with rfl | hold
    · exact hr
    · exact h.bound entry hold
  · intro k n hn
    obtain ⟨m, hm, rfl⟩ := exists_of_released name hn
    obtain ⟨l, hl, rfl⟩ := exists_of_retained name hm
    have hcount : (names.insert name r).entries.countP (place ·.2 = k) + _ = _ :=
      Dictionary.countP_insert _
    rw [h.owned k l hl] at hcount
    exact Nat.eq_sub_of_add_eq hcount

/-- A name gives up what it owned. -/
theorem unbind (h : Balanced place names owners) :
    Balanced place (names.erase name)
      ((names.get? name).elim owners fun old => owners.modify (place old) (· - 1)) := by
  constructor
  · intro entry hentry
    rw [length_released]
    exact h.bound entry (Dictionary.mem_erase hentry)
  · intro k n hn
    obtain ⟨m, hm, rfl⟩ := exists_of_released name hn
    have hcount : (names.erase name).entries.countP (place ·.2 = k) + _ = _ :=
      Dictionary.countP_erase _
    rw [h.owned k m hm] at hcount
    exact Nat.eq_sub_of_add_eq hcount

end Balanced

/-! ## The ledger of a host -/

namespace Host

/-- The element types of the buffers, the owners of buffers and of host values, and the number
of records. -/
structure Ledger where
  elements : List Element
  bufferOwners : List Nat
  slotOwners : List Nat
  records : Nat

def ledger (h : Host) : Ledger where
  elements := h.buffers.map (·.content.elem)
  bufferOwners := h.buffers.map (·.owners)
  slotOwners := h.slots.map (·.owners)
  records := h.records.length

variable {h h' : Host}

theorem ledger_modifyBuffer {r : BufferRef} {f : Storage Buffer → Storage Buffer} {g : Nat → Nat}
    (helem : ∀ s, h.buffers[r.index]? = some s → (f s).content.elem = s.content.elem)
    (howners : ∀ s, (f s).owners = g s.owners) :
    (h.modifyBuffer r f).ledger =
      { h.ledger with bufferOwners := h.ledger.bufferOwners.modify r.index g } := by
  have helements : (h.buffers.modify r.index f).map (·.content.elem) =
      (h.buffers.map (·.content.elem)).modify r.index id := map_modify helem
  rw [List.modify_id] at helements
  simp only [ledger, modifyBuffer, helements, map_modify fun s _ => howners s]

theorem ledger_modifySlot {r : SlotRef} {f : Storage Value → Storage Value} {g : Nat → Nat}
    (howners : ∀ s, (f s).owners = g s.owners) :
    (h.modifySlot r f).ledger =
      { h.ledger with slotOwners := h.ledger.slotOwners.modify r.index g } := by
  simp only [ledger, modifySlot, map_modify fun s _ => howners s]

theorem ledger_setBuffer {r : BufferRef} {b b' : Buffer} (hb : h.buffer? r = some b)
    (helem : b'.elem = b.elem) : (h.setBuffer r b').ledger = h.ledger := by
  have hmodify := h.ledger_modifyBuffer (r := r) (f := fun s => { s with content := b' })
    (g := id) ?_ fun _ => rfl
  · rw [List.modify_id] at hmodify
    exact hmodify
  · intro s hs
    obtain ⟨live, hlive, -, rfl, -⟩ := buffer?_eq_some_iff.mp hb
    obtain rfl := Option.some.inj (hlive.symm.trans hs)
    exact helem

theorem ledger_setSlot (r : SlotRef) (v : Value) : (h.setSlot r v).ledger = h.ledger := by
  have hmodify := h.ledger_modifySlot (r := r) (f := fun s => { s with content := v }) (g := id)
    fun _ => rfl
  rw [List.modify_id] at hmodify
  exact hmodify

theorem ledger_attach (r : RecordRef) (name : String) (field : Field) :
    (h.attach r name field).ledger = h.ledger := by
  simp only [ledger, attach, List.length_modify]

theorem ledger_settle (v : Value) (passed : List SlotRef) :
    (h.settle v passed).ledger = h.ledger := by
  fun_induction h.settle v passed with
  | case1 => rfl
  | case2 r => exact ledger_setSlot r v
  | case3 r next rest ih => rw [ledger_setSlot, ih]

theorem ledger_of_writeMember {r : RecordRef} {name : String} {v : Value}
    (hw : h.writeMember r name v = .ok h') : h'.ledger = h.ledger := by
  rcases writeMember_eq_ok_iff.mp hw with ⟨t, -, -, rfl⟩ | ⟨-, rfl⟩
  · exact ledger_setSlot t v
  · exact ledger_attach r name _

end Host

namespace Access

variable {host : Host} {target key value : Value} {name : String} {q : Place}

theorem ledger_of_writeIndexAt (hw : writeIndexAt ⟨target, host⟩ key value = .ok q) :
    q.host.ledger = host.ledger := by
  cases written_of_writeIndexAt hw with
  | item position inside => rfl
  | appended position => rfl
  | entry isKey => rfl
  | element stored =>
      obtain ⟨b, i, hb, -, -, rfl⟩ := Host.writeElement_eq_ok_iff.mp stored
      exact Host.ledger_setBuffer hb rfl
  | member stored => exact Host.ledger_of_writeMember stored

theorem ledger_of_writeFieldAt (hw : writeFieldAt ⟨target, host⟩ name value = .ok q) :
    q.host.ledger = host.ledger := by
  cases target with
  | hash table =>
      obtain rfl := Except.ok.inj hw
      rfl
  | native handle =>
      cases handle with
      | record r =>
          obtain ⟨h', hmember, rfl⟩ := exists_of_map_eq_ok hw
          exact Host.ledger_of_writeMember hmember
      | _ => contradiction
  | _ => contradiction

theorem ledger_write {edit : Place → Except ScriptError Place} {p : Place}
    (hedit : ∀ v q, edit ⟨v, p.host⟩ = .ok q → q.host.ledger = p.host.ledger) :
    (stateAfter (write edit p)).host.ledger = p.host.ledger := by
  unfold write
  split
  · split
    · rfl
    · split
      · rfl
      · rename_i q hq
        exact (Host.ledger_settle q.target _).trans (hedit _ q hq)
  · dsimp only
    split
    · rfl
    · rename_i q hq
      exact hedit _ q hq

theorem ledger_writeIndex (key value : Value) (p : Place) :
    (stateAfter (writeIndex key value p)).host.ledger = p.host.ledger :=
  ledger_write fun _ _ hw => ledger_of_writeIndexAt hw

theorem ledger_writeField (name : String) (value : Value) (p : Place) :
    (stateAfter (writeField name value p)).host.ledger = p.host.ledger :=
  ledger_write fun _ _ hw => ledger_of_writeFieldAt hw

end Access

namespace StackMachine

/-- Running code creates no host storage, and changes nothing about who owns it. -/
theorem Changes.ledger {width : Width} {stack : List Value} {world world' : World Stock}
    {i : Instruction} (h : Changes width stack world i world') :
    world'.host.ledger = world.host.ledger := by
  cases h with
  | nothing => rfl
  | global i slot v => rfl
  | native name argc => exact congrArg Host.ledger (World.host_callNative _ name _ world)
  | write operands => exact Access.ledger_writeIndex _ _ ⟨_, world.host⟩

theorem ledger_executor (frame : Frame) (s : State Stock) :
    (stateAfter (executor frame s)).world.host.ledger = s.world.host.ledger := by
  rw [world_executor]
  exact run_respects frame (R := fun world world' => world'.host.ledger = world.host.ledger)
    (fun world => rfl) (fun hab hbc => hbc.trans hab) (fun _ _ _ _ hchange => hchange.ledger)
    frame.code s

theorem Comes.ledger {frame : Frame} {s t : State Stock} {code : List UInt8}
    (h : Comes frame s code t) : t.world.host.ledger = s.world.host.ledger := by
  induction h with
  | start => rfl
  | @turn _ _ _ i t t' _ hread hdone ih =>
      have hworld := world_execute frame i (tick t)
      rw [hdone] at hworld
      have hchange := changes_effect frame.width frame.args t.executor.stack t.world i
      calc t'.world.host.ledger
        _ = (effect frame.width frame.args t.executor.stack t.world i).world.host.ledger :=
            congrArg (fun world => world.host.ledger) hworld
        _ = t.world.host.ledger := hchange.ledger
        _ = s.world.host.ledger := ih

end StackMachine

end ScriptCore
