import ScriptCore.Proofs.Machine.Turns

/-!
# Code behind the code that is run

The code of a call runs on to the end of its image, over the code of every later unit. An
operand is decided by the bytes it is made of, whatever comes after them, unless they are
too few. So is every turn of the machine, and a call that does not run off the end of its
code ends in the same way whatever code is put behind it.
-/

namespace ScriptCore

namespace Instruction

namespace Operand

variable {α β : Type}

/-! ## Operands in parts -/

/-- Reads a second part by what the first part says. -/
def andThen (r : Operand α) (next : α → List UInt8 → Operand β) : Operand β :=
  match r with
  | .ok (a, rest) => next a rest
  | .error f => .error f

/-- The next `n` bytes. -/
def piece (n : Nat) (bytes : List UInt8) : Operand (List UInt8) :=
  if n ≤ bytes.length then .ok (bytes.take n, bytes.drop n) else .error .truncated

/-- What the bytes read so far stand for, if they stand for anything. -/
def found (a? : Option α) (f : Fault) (rest : List UInt8) : Operand α :=
  match a? with
  | some a => .ok (a, rest)
  | none => .error f

theorem map_eq_andThen (f : α → β) (r : Operand α) :
    r.map f = r.andThen fun a rest => .ok (f a, rest) := by
  rcases r with f | ⟨a, rest⟩ <;> rfl

theorem text_eq_andThen (bytes : List UInt8) :
    text bytes = (nat bytes).andThen fun n rest => (piece n rest).andThen fun content rest =>
      found (String.fromUTF8? ⟨content.toArray⟩) .invalidText rest := by
  rw [text]
  rcases nat bytes with f | ⟨n, rest⟩
  · rfl
  · by_cases hlen : n ≤ rest.length
    · simp only [andThen, piece, if_pos hlen]
      cases String.fromUTF8? ⟨(rest.take n).toArray⟩ <;> rfl
    · simp only [andThen, piece, if_neg hlen]

theorem operator_eq_andThen (bytes : List UInt8) :
    operator bytes = (byte bytes).andThen fun b rest =>
      found (BinaryOperator.ofCode? b) .unknownOperator rest := by
  rw [operator]
  rcases byte bytes with f | ⟨b, rest⟩
  · rfl
  · simp only [andThen]
    cases BinaryOperator.ofCode? b <;> rfl

theorem native_eq_andThen (bytes : List UInt8) :
    native bytes = (byte bytes).andThen fun argc rest => (text rest).map (argc, ·) := by
  rw [native]
  rcases byte bytes with f | ⟨argc, rest⟩ <;> rfl

/-! ## Bytes after an operand -/

/-- The same operand, with more bytes after those that are left. -/
def before (suffix : List UInt8) : Operand α → Operand α
  | .ok (a, rest) => .ok (a, rest ++ suffix)
  | .error f => .error f

/-- Unless the bytes are too few, bytes after them do not change what is read. -/
def Local (read : List UInt8 → Operand α) : Prop :=
  ∀ bytes suffix, read bytes ≠ .error .truncated →
    read (bytes ++ suffix) = (read bytes).before suffix

namespace Local

variable {read : List UInt8 → Operand α}

theorem nothing (a : α) : Local fun bytes => .ok (a, bytes) :=
  fun _ _ _ => rfl

theorem found (a? : Option α) (f : Fault) : Local (found a? f) := by
  intro bytes suffix _
  cases a? <;> rfl

theorem andThen {next : α → List UInt8 → Operand β} (h : Local read)
    (hnext : ∀ a, Local (next a)) : Local fun bytes => (read bytes).andThen next := by
  -- Had the first part been too short, so would the whole operand have been.
  intro bytes suffix
  have hlonger := h bytes suffix
  dsimp only
  rcases hread : read bytes with f | ⟨a, rest⟩
  · intro hne
    rw [hread] at hlonger
    rw [hlonger fun heq => hne (by rw [heq]; rfl)]
    rfl
  · intro hne
    rw [hread] at hlonger
    rw [hlonger (by simp)]
    exact hnext a rest suffix hne

theorem map (f : α → β) (h : Local read) : Local fun bytes => (read bytes).map f := by
  simp only [map_eq_andThen]
  exact h.andThen fun a => nothing (f a)

end Local

theorem byte_local : Local byte := by
  intro bytes suffix h
  cases bytes with
  | nil => exact absurd rfl h
  | cons b rest => rfl

theorem piece_local (n : Nat) : Local (piece n) := by
  intro bytes suffix h
  by_cases hlen : n ≤ bytes.length
  · have hlonger : n ≤ (bytes ++ suffix).length := by
      rw [List.length_append]
      omega
    rw [piece, if_pos hlonger, piece, if_pos hlen, List.take_append_of_le_length hlen,
      List.drop_append_of_le_length hlen, before]
  · rw [piece, if_neg hlen] at h
    contradiction

theorem nat_local : Local nat := by
  intro bytes suffix h
  rcases hdecode : Varint.decode bytes with ⟨e | n, rest⟩
  · simp [nat, hdecode] at h
  · simp only [nat, hdecode, Varint.decode_append hdecode, before]

theorem int_local : Local int := by
  intro bytes suffix h
  rcases hdecode : Varint.decodeInt bytes with ⟨e | z, rest⟩
  · simp [int, hdecode] at h
  · simp only [int, hdecode, Varint.decodeInt_append hdecode, before]

theorem text_local : Local text := by
  rw [funext text_eq_andThen]
  exact nat_local.andThen fun n => (piece_local n).andThen fun _ => .found _ _

theorem operator_local : Local operator := by
  rw [funext operator_eq_andThen]
  exact byte_local.andThen fun _ => .found _ _

theorem native_local : Local native := by
  rw [funext native_eq_andThen]
  exact byte_local.andThen fun argc => text_local.map (argc, ·)

end Operand

theorem decode_local (opcode : UInt8) : Operand.Local (decode opcode) := by
  intro bytes suffix h
  -- The cases left over have no operands, or are no operation.
  unfold decode at h ⊢
  split at h
  case h_3 => exact Operand.byte_local.map _ bytes suffix h
  case h_4 => exact Operand.int_local.map _ bytes suffix h
  case h_5 => exact Operand.text_local.map _ bytes suffix h
  case h_6 => exact Operand.nat_local.map _ bytes suffix h
  case h_7 => exact Operand.nat_local.map _ bytes suffix h
  case h_8 => exact Operand.operator_local.map _ bytes suffix h
  case h_10 => exact Operand.native_local.map _ bytes suffix h
  case h_14 => exact Operand.nat_local.map _ bytes suffix h
  all_goals rfl

theorem decode_append {opcode : UInt8} {bytes rest : List UInt8} {i : Instruction}
    (h : decode opcode bytes = .ok (i, rest)) (suffix : List UInt8) :
    decode opcode (bytes ++ suffix) = .ok (i, rest ++ suffix) := by
  rw [decode_local opcode bytes suffix (by simp [h]), h, Operand.before]

theorem decode_append_of_fault {opcode : UInt8} {bytes : List UInt8} {f : Fault}
    (h : decode opcode bytes = .error f) (hf : f ≠ .truncated) (suffix : List UInt8) :
    decode opcode (bytes ++ suffix) = .error f := by
  rw [decode_local opcode bytes suffix (by simpa [h] using hf), h, Operand.before]

end Instruction

namespace StackMachine

variable {φ : Type}

/-- An instruction does not see the code of its frame. -/
theorem execute_code [NativeFunction φ] (frame : Frame) (code : List UInt8) (i : Instruction)
    (s : State φ) : execute { frame with code } i s = execute frame i s := by
  cases i <;> rfl

/-- A run that does not find its code truncated is the same with more code behind it. -/
theorem run_append [NativeFunction φ] (frame : Frame) (whole suffix code : List UInt8)
    (s : State φ) (h : ∀ s', run frame code s ≠ .error (fault .truncated) s') :
    run { frame with code := whole } (code ++ suffix) s = run frame code s := by
  -- The assumption is about how the run ends, so it goes through the turns with that end.
  revert h
  refine run_induction frame
    (motive := fun code s r => (∀ s', r ≠ .error (fault .truncated) s') →
      run { frame with code := whole } (code ++ suffix) s = r)
    ?ended ?faulty ?result ?failure ?next code s
  case ended =>
    intro s h
    exact absurd rfl (h s)
  case faulty =>
    intro opcode bytes s f hdecode h
    have hf : f ≠ .truncated := by
      rintro rfl
      exact h (tick s) rfl
    exact run_of_fault _ (Instruction.decode_append_of_fault hdecode hf suffix) s
  case result =>
    intro opcode bytes s i rest v s' hdecode hexecute _
    rw [List.cons_append, run_of_decode _ (Instruction.decode_append hdecode suffix),
      execute_code, hexecute]
  case failure =>
    intro opcode bytes s i rest e s' hdecode hexecute _
    rw [List.cons_append, run_of_decode _ (Instruction.decode_append hdecode suffix),
      execute_code, hexecute]
  case next =>
    intro opcode bytes s i rest s' r hdecode hexecute hrest h
    rw [List.cons_append, run_of_decode _ (Instruction.decode_append hdecode suffix),
      execute_code, hexecute]
    exact hrest h

/-- Code put behind the code of a call does not change the call: unless the call finds its
code truncated, it ends with the same result or error, the same globals, host functions and
host storage, the same stack and the same count of steps. -/
theorem call_ignores_code_behind [NativeFunction φ] (frame : Frame) (suffix : List UInt8)
    (s : State φ)
    (h : (outcome (executor frame s)).result ≠ .error (.raised (.native "truncated code"))) :
    executor { frame with code := frame.code ++ suffix } s = executor frame s := by
  have hrun : ∀ s', run frame frame.code s ≠ .error (fault .truncated) s' := by
    intro s' htruncated
    rw [outcome_executor, htruncated] at h
    exact h rfl
  simp only [executor, run_append frame _ suffix frame.code s hrun]

/-- Behind the code that is run stand an operation code that there is none of and half an
instruction. -/
theorem call_ignores_broken_code_behind :
    outcome (executor ⟨⟨.ofName "main", 0, 0⟩, Instruction.assemble
        [.int 5, .addGlobal 0, .native "calls" 0, .ret] ++ [0xee, 0x03, 0x80], [], .w64⟩
        ⟨.empty, [.int 37], Registry.empty.register "calls" (Stock.counter 0), .empty⟩) =
      ⟨.ok (.int 1),
        ⟨[.int 42], Registry.empty.register "calls" (Stock.counter 1), .empty⟩, 4⟩ := by
  have hcall : outcome (executor ⟨⟨.ofName "main", 0, 0⟩, Instruction.assemble
        [.int 5, .addGlobal 0, .native "calls" 0, .ret], [], .w64⟩
        ⟨.empty, [.int 37], Registry.empty.register "calls" (Stock.counter 0), .empty⟩) =
      ⟨.ok (.int 1),
        ⟨[.int 42], Registry.empty.register "calls" (Stock.counter 1), .empty⟩, 4⟩ := by
    rw [outcome_executor, outcome_run_assemble _ (by decide)]
    rfl
  have hbehind := call_ignores_code_behind _ [0xee, 0x03, 0x80] _
    (ne_of_eq_of_ne (congrArg Outcome.result hcall) (by simp))
  exact (congrArg outcome hbehind).trans hcall

end StackMachine

end ScriptCore
