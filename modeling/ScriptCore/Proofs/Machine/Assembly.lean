import ScriptCore.Machine
import ScriptCore.Native.Stock
import ScriptCore.Proofs.Varint.Fields

/-!
# Running assembled code

Instructions have a meaning of their own: what each does to a stack and the world, and
what a list of them does when it is followed from its first to its last. The machine
reads bytes instead. On assembled code it reads back every instruction, operands
included, and so does exactly what following the list does.
-/

namespace ScriptCore

/-- A loop that has collected the bytes before its position ends with all of them. -/
theorem loop_collects (bytes : ByteArray) (position : Nat) (collected : List UInt8)
    (h : collected.reverse = bytes.data.toList.take position) :
    ByteArray.toList.loop bytes position collected = bytes.data.toList := by
  fun_induction ByteArray.toList.loop bytes position collected with
  | case1 position collected hlt ih =>
      have hnext : bytes.get! position = bytes.data[position] := by
        simp [ByteArray.get!, hlt]
      apply ih
      rw [List.reverse_cons, h, hnext, ← Array.getElem_toList, List.take_append_getElem]
  | case2 position collected hge =>
      rw [h, List.take_of_length_le]
      simpa using hge

theorem bind_apply {ε σ α γ : Type} (x : EStateM ε σ α) (k : α → EStateM ε σ γ) (s : σ) :
    (x >>= k) s = match x s with
      | .ok a s' => k a s'
      | .error e s' => .error e s' := by
  change EStateM.bind x k s = _
  rw [EStateM.bind]
  cases x s <;> rfl

namespace Instruction

/-- The numbers of the operands fit in 64 bits. -/
def Encodable : Instruction → Prop
  | .str s => s.utf8ByteSize < 2 ^ 64
  | .native name _ => name.utf8ByteSize < 2 ^ 64
  | .loadGlobal slot | .storeGlobal slot | .addGlobal slot => slot < 2 ^ 64
  | _ => True

instance : DecidablePred Encodable
  | .str s => inferInstanceAs (Decidable (s.utf8ByteSize < 2 ^ 64))
  | .native name _ => inferInstanceAs (Decidable (name.utf8ByteSize < 2 ^ 64))
  | .loadGlobal slot | .storeGlobal slot | .addGlobal slot =>
      inferInstanceAs (Decidable (slot < 2 ^ 64))
  | .ret | .null | .arg _ | .int _ | .binary _ | .equal | .pop | .readIndex | .writeIndex =>
      .isTrue trivial

/-- The code of a list of instructions. -/
def assemble (program : List Instruction) : List UInt8 :=
  program.flatMap encode

namespace Operand

theorem nat_encode {n : Nat} (h : n < 2 ^ 64) (rest : List UInt8) :
    nat (Varint.encode n ++ rest) = .ok (n, rest) := by
  rw [nat, Varint.decode_encode_append h]

theorem int_encodeInt (n : Int64) (rest : List UInt8) :
    int (Varint.encodeInt n.toInt ++ rest) = .ok (n, rest) := by
  rw [int, Varint.decodeInt_encodeInt_append n.le_toInt n.toInt_lt]
  simp

/-- A text is read back: its bytes are as many as its length says, and are UTF-8. -/
theorem text_encodeText {s : String} (h : s.utf8ByteSize < 2 ^ 64) (rest : List UInt8) :
    text (encodeText s ++ rest) = .ok (s, rest) := by
  have hlist : s.toUTF8.toList = s.toByteArray.data.toList := by
    rw [String.toUTF8_eq_toByteArray]
    exact loop_collects s.toByteArray 0 [] rfl
  have hlen : s.toByteArray.data.toList.length = s.utf8ByteSize := by
    simp
  have hback : String.fromUTF8? ⟨s.toByteArray.data.toList.toArray⟩ = some s := by
    rw [Array.toArray_toList, String.fromUTF8?, dif_pos s.isValidUTF8]
    rfl
  rw [text, encodeText, List.append_assoc, nat_encode h, hlist]
  simp only [List.length_append, hlen, Nat.le_add_right, if_true]
  rw [← hlen, List.take_left, List.drop_left, hback]

theorem operator_code (op : BinaryOperator) (rest : List UInt8) :
    operator (op.code :: rest) = .ok (op, rest) := by
  cases op <;> rfl

end Operand

/-- An instruction is read back from its code, whatever comes after it. -/
theorem decode_encode {i : Instruction} (h : i.Encodable) (rest : List UInt8) :
    ∃ opcode operands, i.encode = opcode :: operands ∧
      decode opcode (operands ++ rest) = .ok (i, rest) := by
  cases i with
  | ret => exact ⟨0x00, [], rfl, rfl⟩
  | null => exact ⟨0x01, [], rfl, rfl⟩
  | arg index => exact ⟨0x02, [index], rfl, rfl⟩
  | int n =>
      exact ⟨0x03, _, rfl, congrArg (Operand.map Instruction.int) (Operand.int_encodeInt n rest)⟩
  | str s =>
      exact ⟨0x04, _, rfl, congrArg (Operand.map Instruction.str) (Operand.text_encodeText h rest)⟩
  | loadGlobal slot =>
      exact ⟨0x05, _, rfl, congrArg (Operand.map loadGlobal) (Operand.nat_encode h rest)⟩
  | storeGlobal slot =>
      exact ⟨0x06, _, rfl, congrArg (Operand.map storeGlobal) (Operand.nat_encode h rest)⟩
  | addGlobal slot =>
      exact ⟨0x0d, _, rfl, congrArg (Operand.map addGlobal) (Operand.nat_encode h rest)⟩
  | binary op =>
      exact ⟨0x07, [op.code], rfl, congrArg (Operand.map binary) (Operand.operator_code op rest)⟩
  | equal => exact ⟨0x08, [], rfl, rfl⟩
  | native name argc =>
      have hname := congrArg (Operand.map (argc, ·)) (Operand.text_encodeText h rest)
      exact ⟨0x09, argc :: encodeText name, rfl,
        congrArg (Operand.map fun f : UInt8 × String => Instruction.native f.2 f.1) hname⟩
  | pop => exact ⟨0x0a, [], rfl, rfl⟩
  | readIndex => exact ⟨0x0b, [], rfl, rfl⟩
  | writeIndex => exact ⟨0x0c, [], rfl, rfl⟩

end Instruction

namespace StackMachine

variable {φ : Type}

/-- What one instruction does to a stack and the world. -/
inductive Effect (φ : Type) where
  | next (stack : List Value) (world : World φ)
  | result (v : Value) (world : World φ)
  | failure (e : Stop) (world : World φ)

/-- Puts a computed value on the stack, or fails with the world as it is. -/
def Effect.pushing (stack : List Value) (world : World φ) : Except Stop Value → Effect φ
  | .ok v => .next (v :: stack) world
  | .error e => .failure e world

/-- There are too few values on the stack. -/
def Effect.underflow (world : World φ) : Effect φ :=
  .failure (.raised (.native "stack underflow")) world

/-- There is no such global. -/
def Effect.noSlot (slot : Nat) (world : World φ) : Effect φ :=
  .failure (ScriptError.positionOutOfRange slot world.globals.length) world

/-- The meaning of an instruction. -/
def effect [NativeFunction φ] (width : Width) (args : List Value) (stack : List Value)
    (world : World φ) : Instruction → Effect φ
  | .ret => .result (stack.head?.getD .null) world
  | .null => .next (.null :: stack) world
  | .arg index => .next (args[index.toNat]?.getD .null :: stack) world
  | .int n => .next (.int (width.wrap n) :: stack) world
  | .str s => .next (.str s :: stack) world
  | .loadGlobal slot =>
      match world.globals[slot]? with
      | none => .noSlot slot world
      | some v => .next (v :: stack) world
  | .storeGlobal slot =>
      match world.globals[slot]?, stack with
      | none, _ => .noSlot slot world
      | some _, [] => .underflow world
      | some _, v :: rest => .next rest { world with globals := world.globals.set slot v }
  | .addGlobal slot =>
      match world.globals[slot]?, stack with
      | none, _ => .noSlot slot world
      | some _, [] => .underflow world
      | some old, rhs :: rest =>
          match Arithmetic.assign width .add rhs old with
          | .ok _ new => .next rest { world with globals := world.globals.set slot new }
          | .error e _ => .failure e world
  | .binary op =>
      match stack with
      | rhs :: lhs :: rest => .pushing rest world (raising (Arithmetic.binary width op lhs rhs))
      | _ => .underflow world
  | .equal =>
      match stack with
      | rhs :: lhs :: rest => .pushing rest world (raising ((Comparison.equals lhs rhs).map .ofBool))
      | _ => .underflow world
  | .native name argc =>
      if argc.toNat ≤ stack.length then
        match world.callNative width name (stack.take argc.toNat).reverse with
        | .ok v world' => .next (v :: stack.drop argc.toNat) world'
        | .error e world' => .failure e world'
      else .underflow world
  | .pop =>
      match stack with
      | _ :: rest => .next rest world
      | [] => .underflow world
  | .readIndex =>
      match stack with
      | key :: target :: rest => .pushing rest world (Access.readIndex world.host target key)
      | _ => .underflow world
  | .writeIndex =>
      match stack with
      | value :: key :: target :: rest =>
          match Access.writeIndex key value ⟨target, world.host⟩ with
          | .ok _ place => .next (place.target :: rest) { world with host := place.host }
          | .error e place => .failure e { world with host := place.host }
      | _ => .underflow world

/-- What a run shows: its result, the world it leaves and how many instructions it
started. -/
structure Outcome (φ : Type) where
  result : Except Stop Value
  world : World φ
  steps : Nat

/-- The outcome of a run that had started `steps` instructions before. -/
def Outcome.after (steps : Nat) (o : Outcome φ) : Outcome φ :=
  { o with steps := steps + o.steps }

/-- Follows a list of instructions until one returns or fails. -/
def follow [NativeFunction φ] (width : Width) (args : List Value) :
    List Instruction → List Value → World φ → Outcome φ
  | [], _, world => ⟨.error (.raised (.native "truncated code")), world, 0⟩
  | i :: rest, stack, world =>
      match effect width args stack world i with
      | .result v world' => ⟨.ok v, world', 1⟩
      | .failure e world' => ⟨.error e, world', 1⟩
      | .next stack' world' => (follow width args rest stack' world').after 1

/-- What an executed instruction shows: its effect, and the count of instructions. -/
def observe : EStateM.Result Stop (State φ) (Option Value) → Effect φ × Nat
  | .ok none s => (.next s.executor.stack s.world, s.executor.steps)
  | .ok (some v) s => (.result v s.world, s.executor.steps)
  | .error e s => (.failure e s.world, s.executor.steps)

theorem pop_apply (stack : List Value) (steps : Nat) (world : World φ) :
    pop (⟨⟨stack, steps⟩, world⟩ : State φ) = match stack with
      | [] => .error underflow ⟨⟨[], steps⟩, world⟩
      | v :: rest => .ok v ⟨⟨rest, steps⟩, world⟩ := by
  cases stack <;> rfl

theorem await_apply {α : Type} (r : Except Stop α) (s : State φ) :
    Running.await r s = match r with
      | .ok a => .ok a s
      | .error e => .error e s := by
  cases r <;> rfl

/-- The machine executes an instruction as it is meant. -/
theorem observe_execute [NativeFunction φ] (frame : Frame) (i : Instruction) (s : State φ) :
    observe (execute frame i s) =
      (effect frame.width frame.args s.executor.stack s.world i, s.executor.steps) := by
  -- Where the stack has to be deep enough, each depth below that fails in the same way.
  obtain ⟨⟨stack, steps⟩, world⟩ := s
  cases i with
  | ret => cases stack <;> rfl
  | null => rfl
  | arg index => rfl
  | int n => rfl
  | str text => rfl
  | loadGlobal slot =>
      simp only [execute, bind_apply, Running.global, effect]
      cases world.globals[slot]? <;> rfl
  | storeGlobal slot =>
      simp only [execute, bind_apply, Running.global, effect]
      cases world.globals[slot]? with
      | none => rfl
      | some old => cases stack <;> rfl
  | addGlobal slot =>
      simp only [execute, bind_apply, Running.global, effect]
      cases world.globals[slot]? with
      | none => rfl
      | some old =>
          cases stack with
          | nil => rfl
          | cons rhs rest =>
              simp only [pop_apply]
              cases Arithmetic.assign frame.width .add rhs old <;> rfl
  | binary op =>
      rcases stack with _ | ⟨rhs, _ | ⟨lhs, rest⟩⟩
      · rfl
      · rfl
      · simp only [execute, bind_apply, pop_apply, Running.attempt, await_apply, effect]
        cases Arithmetic.binary frame.width op lhs rhs <;> rfl
  | equal =>
      rcases stack with _ | ⟨rhs, _ | ⟨lhs, rest⟩⟩
      · rfl
      · rfl
      · simp only [execute, bind_apply, pop_apply, Running.attempt, await_apply, effect]
        cases Comparison.equals lhs rhs <;> rfl
  | native name argc =>
      by_cases hargs : argc.toNat ≤ stack.length
      · simp only [execute, bind_apply, popArgs, effect, if_pos hargs, Running.callNative, setStack]
        cases World.callNative frame.width name (stack.take argc.toNat).reverse world <;> rfl
      · simp only [execute, bind_apply, popArgs, effect, if_neg hargs]
        rfl
  | pop => cases stack <;> rfl
  | readIndex =>
      rcases stack with _ | ⟨key, _ | ⟨target, rest⟩⟩
      · rfl
      · rfl
      · simp only [execute, bind_apply, pop_apply, Running.readIndex, await_apply, effect]
        cases Access.readIndex world.host target key <;> rfl
  | writeIndex =>
      rcases stack with _ | ⟨value, _ | ⟨key, _ | ⟨target, rest⟩⟩⟩
      · rfl
      · rfl
      · rfl
      · simp only [execute, bind_apply, pop_apply, Running.change, effect]
        cases Access.writeIndex key value ⟨target, world.host⟩ <;> rfl

/-- What a call shows. -/
def outcome : EStateM.Result Stop (State φ) Value → Outcome φ
  | .ok v s => ⟨.ok v, s.world, s.executor.steps⟩
  | .error e s => ⟨.error e, s.world, s.executor.steps⟩

/-- One turn of the machine: the instruction read is executed, and the code after it is run
unless that ended the call. -/
theorem run_of_decode [NativeFunction φ] (frame : Frame) {opcode : UInt8}
    {bytes rest : List UInt8} {i : Instruction}
    (h : Instruction.decode opcode bytes = .ok (i, rest)) (s : State φ) :
    run frame (opcode :: bytes) s =
      match execute frame i (tick s) with
      | .error e s' => .error e s'
      | .ok (some v) s' => .ok v s'
      | .ok none s' => run frame rest s' := by
  -- The machine keeps the proof of what it read, so that read is split and not rewritten.
  rw [run]
  split
  · rename_i f hfault
    rw [h] at hfault
    contradiction
  · rename_i i' rest' hread
    obtain ⟨rfl, rfl⟩ : i = i' ∧ rest = rest' := by simpa using h.symm.trans hread
    rfl

/-- What one turn shows is the effect of the instruction read, on the stack and the world as
they are, and then what running the code after it shows. -/
theorem outcome_run_of_decode [NativeFunction φ] (frame : Frame) {opcode : UInt8}
    {bytes rest : List UInt8} {i : Instruction}
    (h : Instruction.decode opcode bytes = .ok (i, rest)) (s : State φ) :
    outcome (run frame (opcode :: bytes) s) =
      match effect frame.width frame.args s.executor.stack s.world i with
      | .result v world => ⟨.ok v, world, s.executor.steps + 1⟩
      | .failure e world => ⟨.error e, world, s.executor.steps + 1⟩
      | .next stack world => outcome (run frame rest ⟨⟨stack, s.executor.steps + 1⟩, world⟩) := by
  rw [run_of_decode frame h]
  have hobserve : observe (execute frame i (tick s)) =
      (effect frame.width frame.args s.executor.stack s.world i, s.executor.steps + 1) :=
    observe_execute frame i (tick s)
  rcases hexecute : execute frame i (tick s) with ⟨_ | v, s'⟩ | ⟨e, s'⟩ <;>
  · rw [hexecute] at hobserve
    obtain ⟨heffect, hsteps⟩ := Prod.mk.inj hobserve
    simp only [← heffect, ← hsteps, outcome]

/-- On the code of an instruction the machine takes that instruction's effect, and goes on
with the code after it. -/
theorem outcome_run_encode [NativeFunction φ] (frame : Frame) {i : Instruction}
    (h : i.Encodable) (rest : List UInt8) (s : State φ) :
    outcome (run frame (i.encode ++ rest) s) =
      match effect frame.width frame.args s.executor.stack s.world i with
      | .result v world => ⟨.ok v, world, s.executor.steps + 1⟩
      | .failure e world => ⟨.error e, world, s.executor.steps + 1⟩
      | .next stack world => outcome (run frame rest ⟨⟨stack, s.executor.steps + 1⟩, world⟩) := by
  obtain ⟨opcode, operands, hencode, hdecode⟩ := Instruction.decode_encode h rest
  rw [hencode, List.cons_append]
  exact outcome_run_of_decode frame hdecode s

/-- Running the code of a program is following its instructions, from any stack and world. -/
theorem outcome_run_assemble [NativeFunction φ] (frame : Frame) {program : List Instruction}
    (h : ∀ i ∈ program, i.Encodable) (s : State φ) :
    outcome (run frame (Instruction.assemble program) s) =
      (follow frame.width frame.args program s.executor.stack s.world).after
        s.executor.steps := by
  -- Every instruction leaves a stack, a world and a count of its own to the rest.
  induction program generalizing s with
  | nil =>
      rw [Instruction.assemble, List.flatMap_nil, run]
      rfl
  | cons i rest ih =>
      have hrest : ∀ j ∈ rest, j.Encodable := fun j hj => h j (List.mem_cons_of_mem i hj)
      have hassemble : Instruction.assemble (i :: rest) = i.encode ++ Instruction.assemble rest :=
        List.flatMap_cons
      rw [hassemble, outcome_run_encode frame (h i List.mem_cons_self), follow]
      cases effect frame.width frame.args s.executor.stack s.world i with
      | result v world => rfl
      | failure e world => rfl
      | next stack world =>
          simp only [ih hrest, Outcome.after, Nat.add_assoc]

/-- What a call leaves on the stack is no part of its outcome. -/
theorem outcome_executor [NativeFunction φ] (frame : Frame) (s : State φ) :
    outcome (executor frame s) = outcome (run frame frame.code s) := by
  rw [executor]
  cases run frame frame.code s <;> rfl

/-- A call of assembled code has the outcome of following its instructions: the same result
or error, the same globals, host functions and host storage, and one step more for every
instruction that was started. -/
theorem executor_follows_program [NativeFunction φ] (unit : UnitEntry)
    (program : List Instruction) (args : List Value) (width : Width) (s : State φ)
    (hencodable : ∀ i ∈ program, i.Encodable) :
    outcome (executor ⟨unit, Instruction.assemble program, args, width⟩ s) =
      (follow width args program s.executor.stack s.world).after s.executor.steps := by
  have hrun := outcome_run_assemble ⟨unit, Instruction.assemble program, args, width⟩ hencodable s
  calc
    outcome (executor ⟨unit, Instruction.assemble program, args, width⟩ s)
        = outcome (run ⟨unit, Instruction.assemble program, args, width⟩
            (Instruction.assemble program) s) := outcome_executor _ s
    _ = (follow width args program s.executor.stack s.world).after s.executor.steps := hrun

/-- Every kind of operand is read back here, and the last instruction finds an empty stack. -/
theorem executor_follows_counting_program :
    outcome (executor ⟨⟨.ofName "main", 0, 0⟩, Instruction.assemble
        [.int (-300), .addGlobal 0, .str "é", .arg 3, .native "calls" 2, .storeGlobal 1,
          .int 6, .int 7, .binary .mul, .pop, .ret, .null], [], .w64⟩
        ⟨.empty, [.int 305, .null], Registry.empty.register "calls" (Stock.counter 0), .empty⟩) =
      ⟨.ok .null,
        ⟨[.int 5, .int 1], Registry.empty.register "calls" (Stock.counter 1), .empty⟩, 11⟩ := by
  rw [executor_follows_program]
  · rfl
  · decide

end StackMachine

end ScriptCore
