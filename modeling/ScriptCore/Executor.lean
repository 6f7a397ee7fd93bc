import ScriptCore.Access
import ScriptCore.Image
import ScriptCore.Native

/-! # Executors

An executor runs the code of one call. It is handed a frame, has a state of its own, and
works on the world that the running code can change. What it changed stays changed when
it fails.
-/

namespace ScriptCore

/-- One call as an executor sees it. -/
structure Frame where
  unit : UnitEntry
  code : List UInt8
  args : List Value
  width : Width

/-- An executor's own state beside the world. -/
structure Running (σ φ : Type) where
  executor : σ
  world : World φ

abbrev Exec (σ φ α : Type) := EStateM Stop (Running σ φ) α

abbrev Executor (σ φ : Type) := Frame → Exec σ φ Value

/-- The argument at a position, or null. -/
def Frame.arg (f : Frame) (i : Nat) : Value :=
  f.args[i]?.getD .null

namespace Running

variable {σ φ α : Type}

def setGlobals (s : Running σ φ) (globals : List Value) : Running σ φ :=
  { s with world := { s.world with globals } }

def setHost (s : Running σ φ) (host : Host) : Running σ φ :=
  { s with world := { s.world with host } }

/-- A result that neither depends on the state nor changes it. -/
def await (r : Except Stop α) : Exec σ φ α := fun s =>
  match r with
  | .ok a => .ok a s
  | .error e => .error e s

def attempt (r : Except ScriptError α) : Exec σ φ α :=
  await (raising r)

def readIndex (target key : Value) : Exec σ φ Value := fun s =>
  await (Access.readIndex s.world.host target key) s

def readField (target : Value) (name : String) : Exec σ φ Value := fun s =>
  await (Access.readField s.world.host target name) s

/-- Makes a write on a value that is in no variable, and returns the changed value. -/
def change (write : EStateM Stop Place Unit) (target : Value) : Exec σ φ Value := fun s =>
  match write ⟨target, s.world.host⟩ with
  | .ok _ p => .ok p.target (s.setHost p.host)
  | .error e p => .error e (s.setHost p.host)

def callNative [NativeFunction φ] (w : Width) (name : String) (args : List Value) :
    Exec σ φ Value := fun s =>
  match s.world.callNative w name args with
  | .ok v world => .ok v { s with world }
  | .error e world => .error e { s with world }

/-- The content of a global slot. -/
def global (slot : Nat) : Exec σ φ Value := fun s =>
  match s.world.globals[slot]? with
  | some v => .ok v s
  | none => .error (ScriptError.positionOutOfRange slot s.world.globals.length) s

def setGlobal (slot : Nat) (v : Value) : Exec σ φ Unit := fun s =>
  .ok () (s.setGlobals (s.world.globals.set slot v))

end Running

end ScriptCore
