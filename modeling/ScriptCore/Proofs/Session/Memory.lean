import ScriptCore.Proofs.Session.Moves

/-!
# Host and scripts see one memory

A session writes elements of buffers by name, through handles, and from code that it calls.
All of these writes, in their order, tell what every buffer holds; no other command touches
an element. So whoever reads an element of a live buffer gets what the last write has left.
-/

namespace ScriptCore

namespace Session

/-! ## Elements after steps -/

theorem replays_releasedBuffer (s : Session) (name : String) :
    s.host.Replays [] (s.releasedBuffer name) := by
  rw [releasedBuffer]
  split
  · exact s.host.replays_releaseBuffer _
  · exact Host.replays_of_buffers_eq rfl

theorem replays_releasedSlot (s : Session) (name : String) :
    s.host.Replays [] (s.releasedSlot name) := by
  rw [releasedSlot]
  split <;> exact Host.replays_of_buffers_eq rfl

/-- After a move the buffers hold what its writes have left. -/
theorem Move.replays {s s' : Session} {loaded : Option String} {log : List ElementWrite}
    (h : s.Move loaded log s') : s.host.Replays log s'.host := by
  cases h with
  | content rewritten =>
      obtain ⟨vars, host, hupdates, rfl⟩ := rewritten
      exact hupdates.replays
  | newBuffer name content =>
      let made : Session := { s with host := (s.host.addBuffer content).2 }
      exact Host.replays_addBuffer.append (made.replays_releasedBuffer name)
  | @cloneBuffer name copy r held =>
      let shared : Session := { s with host := s.host.retainBuffer r }
      exact (s.host.replays_retainBuffer r).append (shared.replays_releasedBuffer copy)
  | dropBuffer name => exact s.replays_releasedBuffer name
  | newSlot name v =>
      let made : Session := { s with host := (s.host.addSlot v).2 }
      exact Host.Replays.append (Host.replays_of_buffers_eq rfl) (made.replays_releasedSlot name)
  | @cloneSlot name copy r held =>
      let shared : Session := { s with host := s.host.retainSlot r }
      exact Host.Replays.append (Host.replays_of_buffers_eq rfl) (shared.replays_releasedSlot copy)
  | dropSlot name => exact s.replays_releasedSlot name
  | newRecord name => exact Host.replays_of_buffers_eq rfl
  | dropRecord name => exact Host.replays_of_buffers_eq rfl
  | functions registry => exact Host.replays_of_buffers_eq rfl
  | context machine registry held like updated => exact updated.replays
  | load name read => exact Host.replays_of_buffers_eq rfl

/-- The writes of elements in a list of steps, in their order. -/
def writes (s : Session) : List Step → List ElementWrite
  | [] => []
  | step :: rest => step.command.writes s ++ (s.perform step).2.writes rest

theorem replays_perform (s : Session) (step : Step) :
    s.host.Replays (step.command.writes s) (s.perform step).2.host := by
  obtain ⟨s', hmove, vars, hperform⟩ := s.exists_move_perform step
  rw [hperform]
  exact hmove.replays

/-- After a list of steps the buffers hold what its writes have left. -/
theorem replays_after (s : Session) (steps : List Step) :
    s.host.Replays (s.writes steps) (s.after steps).host := by
  induction steps generalizing s with
  | nil => exact Host.replays_of_buffers_eq rfl
  | cons step rest ih => exact (s.replays_perform step).append (ih (s.perform step).2)

/-- Whoever reads an element gets `x`: the host by any name of the buffer, and scripts through
any value that leads to it and any field that stands for it. -/
structure Reads (s : Session) (r : BufferRef) (i : Nat) (x : Int64) : Prop
    extends s.host.Reads r i x where
  by_name : ∀ name, s.buffers.get? name = some r →
    (StorageCommand.bufferGet name i).perform s = .ok (.element (some x)) s

theorem reads_of_get? {s : Session} {r : BufferRef} {b : Buffer} {i : Nat} {x : Int64}
    (hb : s.host.buffer? r = some b) (hx : b.get? i = some x) : s.Reads r i x := by
  refine ⟨Host.reads_of_get? hb hx, ?_⟩
  intro name hname
  simp only [StorageCommand.perform, StorageCommand.withBuffer_apply, hname, hb, hx]
  rfl

/-- What the writes of `log`, made after `s`, mean for `s'`. The buffers looked at are those of
`s`, where one may just have been made. -/
structure OneMemory (s : Session) (log : List ElementWrite) (s' : Session) : Prop where
  /-- Every read of an element of a live buffer gives what the writes have left in it. -/
  reads : ∀ r b initial i, s.host.buffers[r.index]? = some initial →
    s'.host.buffer? r = some b → i < initial.content.length →
      ∃ x, ElementWrite.Leaves log r i initial.content x ∧ s'.Reads r i x
  /-- So does every read in code that is then run, with the writes it has made by then. -/
  reads_in_code : ∀ frame start code t, start.world.host = s'.host →
    StackMachine.Comes frame start code t →
      ∃ made, StackMachine.writes frame frame.code start =
          made ++ StackMachine.writes frame code t ∧
        ∀ r b initial i, s.host.buffers[r.index]? = some initial →
          t.world.host.buffer? r = some b → i < initial.content.length →
            ∃ x, ElementWrite.Leaves (log ++ made) r i initial.content x ∧
              t.world.host.Reads r i x
  /-- The host writes to every position of a buffer, and past the end nothing changes. -/
  host_writes : ∀ name r b i n, s'.buffers.get? name = some r → s'.host.buffer? r = some b →
    ∃ after, (StorageCommand.bufferSet name i n).perform s' = .ok (.flag (i < b.length)) after ∧
      (b.length ≤ i → after = s')
  /-- Scripts write integers to every position of a buffer. -/
  script_writes : ∀ target r b (n x : Int64), s'.host.resolve target = .ok (.native (.slice r)) →
    s'.host.buffer? r = some b → 0 ≤ n.toInt ∧ n.toInt < b.length →
      ∃ q, Access.writeIndex (.int n) (.int x) ⟨target, s'.host⟩ = .ok () q
  /-- All their other writes to a buffer fail, and change nothing. -/
  script_writes_fail : ∀ target r b (n : Int64) value,
    s'.host.resolve target = .ok (.native (.slice r)) → s'.host.buffer? r = some b →
      (n.toInt < 0 ∨ b.length ≤ n.toInt ∨ ∀ x, value ≠ .int x) →
        ∃ e, Access.writeIndex (.int n) value ⟨target, s'.host⟩ =
          .error (.raised e) ⟨target, s'.host⟩

/-- Host and scripts see one memory: whatever steps a session performs, and however they mix
writes by name, through handles and from code, every read gives what the last successful
write to the element has left there, and a write that fails leaves all elements alone. -/
theorem host_and_scripts_see_one_memory (s : Session) (steps : List Step) :
    s.OneMemory (s.writes (s.performed steps)) (s.performAll steps).2 := by
  have hreplays := s.replays_after (s.performed steps)
  rw [← s.performAll_snd steps] at hreplays
  constructor
  case reads =>
    intro r b initial i hinitial hb hi
    obtain ⟨x, hleaves, hx⟩ := hreplays.exists_leaves hinitial hb hi
    exact ⟨x, hleaves, reads_of_get? hb hx⟩
  case reads_in_code =>
    intro frame start code t hstart hcomes
    obtain ⟨made, hwrites, hmade⟩ := hcomes.exists_writes
    rw [hstart] at hmade
    refine ⟨made, hwrites, ?_⟩
    intro r b initial i hinitial hb hi
    obtain ⟨x, hleaves, hx⟩ := (hreplays.append hmade).exists_leaves hinitial hb hi
    exact ⟨x, hleaves, Host.reads_of_get? hb hx⟩
  case host_writes =>
    intro name r b i n hname hb
    refine ⟨_, StorageCommand.perform_bufferSet hname hb i n, ?_⟩
    intro hi
    rw [Host.setBuffer_of_length_le hb hi]
  case script_writes =>
    intro target r b n x hresolve hb hn
    exact Access.exists_writeIndex_eq_ok hresolve hb hn
  case script_writes_fail =>
    intro target r b n value hresolve hb hbad
    exact Access.exists_writeIndex_eq_error hresolve hb hbad

/-- A session with a buffer of two elements. -/
def pair : Session :=
  ((start .w64).performAll [⟨.storage (.newBuffer "a" (.ofInts .i8 [1, 2])), none, none⟩]).2

/-- Writes by the name of a clone and through a handle, the last one past the end. -/
def mixedSteps : List Step :=
  [⟨.storage (.cloneBuffer "a" "b"), none, none⟩,
    ⟨.storage (.bufferSet "b" 0 200), none, none⟩,
    ⟨.storage (.bufferHandle "a"), some "h", none⟩,
    ⟨.container (.writeIndex "h" (.value (.int 0)) (.value (.int 300))), none, none⟩,
    ⟨.container (.writeIndex "h" (.value (.int 2)) (.value (.int 5))), none, none⟩]

theorem mixed_writes_are_read :
    pair.writes (pair.performed mixedSteps) = [⟨0, 0, 200⟩, ⟨0, 0, 300⟩] ∧
      (pair.performAll mixedSteps).2.Reads ⟨.i8, 0⟩ 0 44 ∧
      (pair.performAll mixedSteps).2.Reads ⟨.i8, 0⟩ 1 2 := by
  have hmemory := host_and_scripts_see_one_memory pair mixedSteps
  refine ⟨rfl, ?_, ?_⟩
  · obtain ⟨x, hleaves, hreads⟩ := hmemory.reads ⟨.i8, 0⟩ _ _ 0 rfl rfl (by decide)
    have hreduces : Element.i8.Reduces 300 44 := by decide
    obtain rfl : 44 = x := (hleaves 44).mp hreduces
    exact hreads
  · obtain ⟨x, hleaves, hreads⟩ := hmemory.reads ⟨.i8, 0⟩ _ _ 1 rfl rfl (by decide)
    obtain rfl : 2 = x := Option.some.inj hleaves
    exact hreads

end Session

end ScriptCore
