import ScriptCore.Context
import ScriptCore.Machine
import ScriptCore.Native.Stock
import ScriptCore.Session.Term

/-! # Session state

A session is a host at work: script variables, host storage under names, a registry of
stock functions, contexts under names and one stack machine for all calls. Host names
are the owners of the storage they are bound to.
-/

namespace ScriptCore

structure Session where
  /-- The width of commands outside contexts. -/
  width : Width
  vars : Term.Variables
  buffers : Dictionary String BufferRef
  slots : Dictionary String SlotRef
  records : Dictionary String RecordRef
  contexts : Dictionary String Context
  /-- The number of the next context. -/
  nextContext : UInt32
  registry : Registry Stock
  machine : StackMachine
  host : Host

/-- The raw content of a record field. -/
inductive FieldKind where
  | value
  | slice
  | slot
deriving DecidableEq

def FieldKind.ofField : Field → FieldKind
  | .value _ => .value
  | .slice _ => .slice
  | .slot _ => .slot

/-- What a command answers. -/
inductive Reply where
  | done
  | value (v : Value)
  | text (s : String)
  | flag (b : Bool)
  | count (n : Nat)
  /-- The order of two values, if they have one. -/
  | order (o : Option Ordering)
  | element (n : Option Int64)
  | elements (ns : List Int64)
  | contents (ns : List Int64)
  | slice (elem : Element) (length : Except ScriptError Nat)
  | field (kind : Option FieldKind) (size : Nat)
  | registry (known : Bool) (size : Nat) (summary : String)
  | nativeCall (result : Except ScriptError Value) (globals : List Value)
  | context (c : Context)
  | unit (found : Option UnitEntry) (checked : Except ScriptError UnitEntry)
  | call (result : Except ScriptError Value) (globals : List Value) (steps : Nat)
  /-- The command names something that the session does not have. -/
  | refused

namespace Session

def start (width : Width) : Session where
  width
  vars := .empty
  buffers := .empty
  slots := .empty
  records := .empty
  contexts := .empty
  nextContext := 1
  registry := .empty
  machine := .empty
  host := .empty

/-- A command changes the session, also when it fails. -/
abbrev Act := EStateM Stop Session

def valueOf (s : Session) (name : String) : Value :=
  (s.vars.get? name).getD .null

def setVariable (s : Session) (name : String) (v : Value) : Session :=
  { s with vars := s.vars.insert name v }

def store (name : String) (v : Value) : Act Unit :=
  modify (·.setVariable name v)

def await {α : Type} (r : Except Stop α) : Act α := fun s =>
  match r with
  | .ok a => .ok a s
  | .error e => .error e s

def attempt {α : Type} (r : Except ScriptError α) : Act α :=
  await (raising r)

def eval (t : Term) : Act Value := fun s =>
  attempt (t.eval s.vars) s

def evalAll (ts : List Term) : Act (List Value) := fun s =>
  attempt (Term.evalAll s.vars ts) s

/-- Runs an operation on the content of a variable. -/
def onVariable {α : Type} (name : String) (m : EStateM ScriptError Value α) : Act α := fun s =>
  match m (s.valueOf name) with
  | .ok a v => .ok a (s.setVariable name v)
  | .error e v => .error e (s.setVariable name v)

/-- Runs a write on a variable and the host storage in its reach. -/
def onPlace {α : Type} (name : String) (m : EStateM Stop Place α) : Act α := fun s =>
  match m ⟨s.valueOf name, s.host⟩ with
  | .ok a p => .ok a { s.setVariable name p.target with host := p.host }
  | .error e p => .error e { s.setVariable name p.target with host := p.host }

/-- Continues with what a look-up found, or refuses. -/
def found {α : Type} (r : Option α) (k : α → Act Reply) : Act Reply :=
  match r with
  | some a => k a
  | none => return .refused

end Session

end ScriptCore
