import ScriptCore.Arithmetic
import ScriptCore.Comparison
import ScriptCore.Executor
import ScriptCore.Machine.Instruction

/-! # The stack machine

An executor for byte code. It reads one instruction after another, each working on an
operand stack, until one returns or fails. There are no jumps, so a run whose instructions
all end does so with its code at the latest. One machine serves many calls: what a call
leaves on the stack is dropped, and the step count goes on.
-/

namespace ScriptCore

/-- The operand stack, its top first, and the number of instructions started so far. -/
structure StackMachine where
  stack : List Value
  steps : Nat

namespace StackMachine

def empty : StackMachine := ⟨[], 0⟩

variable {φ : Type}

abbrev State (φ : Type) := Running StackMachine φ

def fault (f : Fault) : ScriptError :=
  .native f.report

def underflow : ScriptError :=
  .native "stack underflow"

def setStack (s : State φ) (stack : List Value) : State φ :=
  { s with executor := { s.executor with stack } }

/-- Counts an instruction as started. -/
def tick (s : State φ) : State φ :=
  { s with executor := { s.executor with steps := s.executor.steps + 1 } }

def push (v : Value) : Exec StackMachine φ Unit := fun s =>
  .ok () (setStack s (v :: s.executor.stack))

def pop : Exec StackMachine φ Value := fun s =>
  match s.executor.stack with
  | [] => .error underflow s
  | v :: rest => .ok v (setStack s rest)

/-- Takes the top `n` values, the deepest of them first. -/
def popArgs (n : Nat) : Exec StackMachine φ (List Value) := fun s =>
  let stack := s.executor.stack
  if n ≤ stack.length then .ok (stack.take n).reverse (setStack s (stack.drop n))
  else .error underflow s

/-- Executes one instruction; a result ends the call. -/
def execute [NativeFunction φ] (frame : Frame) : Instruction → Exec StackMachine φ (Option Value)
  | .ret => fun s =>
      match s.executor.stack with
      | [] => .ok (some .null) s
      | v :: rest => .ok (some v) (setStack s rest)
  | .null => do
      push .null
      return none
  | .arg index => do
      push (frame.arg index.toNat)
      return none
  | .int n => do
      push (.int (frame.width.wrap n))
      return none
  | .str s => do
      push (.str s)
      return none
  | .loadGlobal slot => do
      push (← Running.global slot)
      return none
  | .storeGlobal slot => do
      let _ ← Running.global slot
      Running.setGlobal slot (← pop)
      return none
  | .addGlobal slot => do
      let old ← Running.global slot
      let rhs ← pop
      match Arithmetic.assign frame.width .add rhs old with
      | .ok _ new => Running.setGlobal slot new
      | .error e _ => throw (.raised e)
      return none
  | .binary op => do
      let rhs ← pop
      let lhs ← pop
      push (← Running.attempt (Arithmetic.binary frame.width op lhs rhs))
      return none
  | .equal => do
      let rhs ← pop
      let lhs ← pop
      push (.ofBool (← Running.attempt (Comparison.equals lhs rhs)))
      return none
  | .native name argc => do
      let args ← popArgs argc.toNat
      push (← Running.callNative frame.width name args)
      return none
  | .pop => do
      let _ ← pop
      return none
  | .readIndex => do
      let key ← pop
      let target ← pop
      push (← Running.readIndex target key)
      return none
  | .writeIndex => do
      let value ← pop
      let key ← pop
      let target ← pop
      push (← Running.change (Access.writeIndex key value) target)
      return none

/-- Runs code until it returns or fails. -/
def run [NativeFunction φ] (frame : Frame) : List UInt8 → Exec StackMachine φ Value
  | [] => fun s => .error (fault .truncated) s
  | opcode :: bytes => fun s =>
      match h : Instruction.decode opcode bytes with
      | .error f => .error (fault f) (tick s)
      | .ok (instruction, rest) =>
          match execute frame instruction (tick s) with
          | .error e s' => .error e s'
          | .ok (some v) s' => .ok v s'
          | .ok none s' =>
              have : rest.length ≤ bytes.length := Instruction.length_decode_le h
              run frame rest s'
termination_by code => code.length

/-- Drops what lies above the lowest `depth` values of the stack. -/
def cutBack (depth : Nat) (s : State φ) : State φ :=
  setStack s (s.executor.stack.drop (s.executor.stack.length - depth))

/-- The machine as an executor. -/
def executor [NativeFunction φ] : Executor StackMachine φ := fun frame s =>
  let depth := s.executor.stack.length
  match run frame frame.code s with
  | .ok v s' => .ok v (cutBack depth s')
  | .error e s' => .error e (cutBack depth s')

end StackMachine

end ScriptCore
