import ScriptCore.Proofs.Host.Replay

/-!
# Writes of elements in a run

A run writes elements with its subscript writes alone: the other instructions and the stock
functions leave the buffers as they are. So its writes, in the order of its instructions,
tell what the buffers hold after it.
-/

namespace ScriptCore

namespace StackMachine

/-- The writes of elements that an instruction comes to. -/
def instructionWrites (stack : List Value) (host : Host) : Instruction → List ElementWrite
  | .writeIndex =>
      match stack with
      | value :: key :: target :: _ => Access.elementWrites ⟨target, host⟩ key value
      | _ => []
  | _ => []

/-- The writes of elements in a run, in their order. -/
def writes (frame : Frame) : List UInt8 → State Stock → List ElementWrite
  | [], _ => []
  | opcode :: bytes, s =>
      match h : Instruction.decode opcode bytes with
      | .error _ => []
      | .ok (instruction, rest) =>
          instructionWrites s.executor.stack s.world.host instruction ++
            match execute frame instruction (tick s) with
            | .ok none s' =>
                have : rest.length ≤ bytes.length := Instruction.length_decode_le h
                writes frame rest s'
            | _ => []
termination_by code => code.length

variable {opcode : UInt8} {bytes rest : List UInt8} {i : Instruction}

theorem writes_of_fault (frame : Frame) {f : Fault}
    (h : Instruction.decode opcode bytes = .error f) (s : State Stock) :
    writes frame (opcode :: bytes) s = [] := by
  rw [writes]
  split
  · rfl
  · rename_i hread
    rw [h] at hread
    contradiction

theorem writes_of_decode (frame : Frame) (h : Instruction.decode opcode bytes = .ok (i, rest))
    (s : State Stock) :
    writes frame (opcode :: bytes) s =
      instructionWrites s.executor.stack s.world.host i ++
        match execute frame i (tick s) with
        | .ok none s' => writes frame rest s'
        | _ => [] := by
  rw [writes]
  split
  · rename_i f hfault
    rw [h] at hfault
    contradiction
  · rename_i i' rest' hread
    obtain ⟨rfl, rfl⟩ : i = i' ∧ rest = rest' := by simpa using h.symm.trans hread
    rfl

end StackMachine

/-- The stock functions leave host storage alone. -/
theorem Stock.host_call (width : Width) (args : List Value) (s : NativeScope Stock) :
    (stateAfter (NativeFunction.call width args s)).host = s.host := by
  change (stateAfter (Stock.call width args s)).host = s.host
  rw [Stock.call]
  split
  case h_1 => split <;> rfl
  case h_8 => split <;> rfl
  all_goals rfl

theorem World.host_callNative (width : Width) (name : String) (args : List Value)
    (world : World Stock) : (stateAfter (world.callNative width name args)).host = world.host := by
  rcases stateAfter_callNative width name args world with hsame | ⟨f, hcalled⟩
  · rw [hsame]
  · rw [hcalled]
    exact Stock.host_call width args ⟨f, world.globals, world.host⟩

namespace StackMachine

theorem replays_effect (width : Width) (args stack : List Value) (world : World Stock)
    (i : Instruction) :
    world.host.Replays (instructionWrites stack world.host i)
      (effect width args stack world i).world.host := by
  -- What other instructions can make of the world is known; a subscript write is followed.
  by_cases hi : i = .writeIndex
  · subst hi
    rcases stack with _ | ⟨value, _ | ⟨key, _ | ⟨target, rest⟩⟩⟩
    · exact Host.replays_of_buffers_eq rfl
    · exact Host.replays_of_buffers_eq rfl
    · exact Host.replays_of_buffers_eq rfl
    · have hwrite := Access.replays_writeIndex key value ⟨target, world.host⟩
      dsimp only [effect]
      split <;>
      · rename_i hend
        rw [hend] at hwrite
        exact hwrite
  · have hchange := changes_effect width args stack world i
    generalize (effect width args stack world i).world = world' at hchange ⊢
    have hnone : instructionWrites stack world.host i = [] := by
      cases i with
      | writeIndex => exact absurd rfl hi
      | _ => rfl
    rw [hnone]
    apply Host.replays_of_buffers_eq
    cases hchange with
    | nothing => rfl
    | global i slot v => rfl
    | native name argc => exact congrArg Host.buffers (World.host_callNative width name _ world)
    | write operands => exact absurd rfl hi

theorem replays_execute (frame : Frame) (i : Instruction) (s : State Stock) :
    s.world.host.Replays (instructionWrites s.executor.stack s.world.host i)
      (stateAfter (execute frame i (tick s))).world.host := by
  rw [world_execute]
  exact replays_effect frame.width frame.args s.executor.stack s.world i

/-- After a run the buffers hold what its writes have left. -/
theorem replays_run (frame : Frame) (code : List UInt8) (s : State Stock) :
    s.world.host.Replays (writes frame code s) (stateAfter (run frame code s)).world.host := by
  refine run_induction frame
    (motive := fun code s r => s.world.host.Replays (writes frame code s) (stateAfter r).world.host)
    ?ended ?faulty ?result ?failure ?next code s
  case ended =>
    intro s
    rw [writes]
    exact Host.replays_of_buffers_eq rfl
  case faulty =>
    intro _ _ s _ hread
    rw [writes_of_fault frame hread]
    exact Host.replays_of_buffers_eq rfl
  case result =>
    intro _ _ s i _ v s' hread hdone
    have hturn := replays_execute frame i s
    rw [hdone] at hturn
    rw [writes_of_decode frame hread, hdone, List.append_nil]
    exact hturn
  case failure =>
    intro _ _ s i _ e s' hread hdone
    have hturn := replays_execute frame i s
    rw [hdone] at hturn
    rw [writes_of_decode frame hread, hdone, List.append_nil]
    exact hturn
  case next =>
    intro _ _ s i _ s' r hread hdone hrest
    have hturn := replays_execute frame i s
    rw [hdone] at hturn
    rw [writes_of_decode frame hread, hdone]
    exact hturn.append hrest

/-- The writes of a run are those before a configuration, which have been made there, and those
after it. -/
theorem Comes.exists_writes {frame : Frame} {s t : State Stock} {code : List UInt8}
    (hcomes : Comes frame s code t) :
    ∃ made, writes frame frame.code s = made ++ writes frame code t ∧
      s.world.host.Replays made t.world.host := by
  induction hcomes with
  | start => exact ⟨[], rfl, Host.replays_of_buffers_eq rfl⟩
  | @turn _ _ _ i t t' _ hread hdone ih =>
      obtain ⟨made, hwrites, hreplays⟩ := ih
      have hturn := replays_execute frame i t
      rw [hdone] at hturn
      refine ⟨made ++ instructionWrites t.executor.stack t.world.host i, ?_, hreplays.append hturn⟩
      rw [hwrites, writes_of_decode frame hread, hdone, List.append_assoc]

end StackMachine

end ScriptCore
