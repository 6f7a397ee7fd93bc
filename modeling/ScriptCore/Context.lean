import ScriptCore.Executor

/-! # Contexts

A context is an image that has been read and checked, with its own global slots. Its
units are called by hash; the call hands a frame to an executor, which runs the code. A
unit reference belongs to the context that made it.
-/

namespace ScriptCore

structure Config where
  limits : Limits := {}
  width : Width := .w64
deriving DecidableEq

/-- A loaded image. Its bytes are lent by the host or the context's own. -/
structure Context where
  id : ContextId
  borrowed : Bool
  image : List UInt8
  units : List UnitEntry
  codeEnd : Nat
  globals : List Value
  config : Config

/-- What a call starts from and leaves behind. -/
structure CallSite (σ φ : Type) where
  context : Context
  executor : σ
  registry : Registry φ
  host : Host

namespace Context

/-- The bytes that a value takes. -/
def valueSize : Nat := 24

/-- The context of an image that has been read; the globals start as null. -/
def ofImage (id : ContextId) (borrowed : Bool) (config : Config) (bytes : List UInt8)
    (image : Image) : Context where
  id
  borrowed
  image := bytes
  units := image.units
  codeEnd := image.codeEnd
  globals := List.replicate image.globals .null
  config

/-- Reads an image into a context, where there is room for the table and the globals. -/
def load (id : ContextId) (borrowed : Bool) (config : Config) (bytes : List UInt8)
    (memory : Memory := .full) : Except Stop Context :=
  match Image.load memory config.limits bytes with
  | .error e => .error e
  | .ok image =>
      if memory.holds image.globals valueSize then .ok (ofImage id borrowed config bytes image)
      else .error .exhausted

theorem load_eq_ok_iff {id : ContextId} {borrowed : Bool} {config : Config} {bytes : List UInt8}
    {memory : Memory} {c : Context} :
    load id borrowed config bytes memory = .ok c ↔
      ∃ image, Image.load memory config.limits bytes = .ok image ∧
        memory.holds image.globals valueSize = true ∧
          c = ofImage id borrowed config bytes image := by
  rw [load]
  cases Image.load memory config.limits bytes with
  | error e => simp
  | ok image =>
      dsimp only
      split
      · rename_i hroom
        constructor
        · rintro ⟨rfl⟩
          exact ⟨image, rfl, hroom, rfl⟩
        · rintro ⟨_, ⟨rfl⟩, -, rfl⟩
          rfl
      · rename_i hfull
        simp [hfull]

/-- Gives the context bytes of its own. -/
def own (c : Context) : Context :=
  { c with borrowed := false }

def unit? (c : Context) (h : UnitHash) : Option UnitEntry :=
  c.units.find? (·.hash = h)

def unit (c : Context) (h : UnitHash) : Except ScriptError UnitEntry :=
  match c.unit? h with
  | some u => .ok u
  | none => .error (.unknownUnit h)

/-- A reference to a unit of this context. -/
def reference (c : Context) (h : UnitHash) : Except ScriptError Value :=
  (c.unit h).map fun u => .unit ⟨u.hash, c.id⟩

/-- The bytes from a unit's first instruction to the end of the code. -/
def codeFrom (c : Context) (offset : Nat) : List UInt8 :=
  (c.image.take c.codeEnd).drop offset

/-- The frame of a call; missing arguments are null. -/
def frame (c : Context) (u : UnitEntry) (args : List Value) : Frame :=
  { unit := u
    code := c.codeFrom u.offset
    args := args ++ List.replicate (u.params.toNat - args.length) .null
    width := c.config.width }

variable {σ φ : Type}

/-- What an executor starts with. -/
def enter (s : CallSite σ φ) : Running σ φ :=
  ⟨s.executor, ⟨s.context.globals, s.registry, s.host⟩⟩

/-- The call site once an executor has finished. -/
def leave (s : CallSite σ φ) (r : Running σ φ) : CallSite σ φ :=
  { context := { s.context with globals := r.world.globals }
    executor := r.executor
    registry := r.world.registry
    host := r.world.host }

/-- Calls a unit of the context by hash. -/
def call (execute : Executor σ φ) (h : UnitHash) (args : List Value) :
    EStateM Stop (CallSite σ φ) Value := fun s =>
  match s.context.unit h with
  | .error e => .error e s
  | .ok u =>
      let most := s.context.config.limits.args
      if most < args.length then .error (ScriptError.positionOutOfRange args.length most) s
      else
        match execute (s.context.frame u args) (enter s) with
        | .ok v r => .ok v (leave s r)
        | .error e r => .error e (leave s r)

/-- Calls the unit that a reference names, if it is one of the context's own. -/
def callReference (execute : Executor σ φ) (target : Value) (args : List Value) :
    EStateM Stop (CallSite σ φ) Value := fun s =>
  match target with
  | .unit ref =>
      if ref.context = s.context.id then call execute ref.hash args s
      else .error (.raised (.foreignUnit ref.hash)) s
  | other => .error (.raised (.wrongType .call other.tag)) s

end Context

end ScriptCore
