import ScriptCore.Session.Basic

/-! # Commands on host functions and contexts -/

namespace ScriptCore

/-- The stock functions by kind; some of them keep a value given when they are made. -/
inductive StockKind where
  | sum
  | argc
  | second
  | pack
  | constant
  | counter
  | quiet
  | swapGlobal
  | fail
deriving DecidableEq

/-- A new function of a kind. -/
def Stock.ofKind (captured : Value) : StockKind → Stock
  | .sum => .sum
  | .argc => .argc
  | .second => .second
  | .pack => .pack
  | .constant => .constant captured
  | .counter => .counter 0
  | .quiet => .quiet
  | .swapGlobal => .swapGlobal
  | .fail => .fail captured.text

/-- Who runs a call. -/
inductive Engine where
  | machine
  /-- Answers with a description of the frame it was given. -/
  | probe
deriving DecidableEq

/-- What is called. -/
inductive Callee where
  | unit (hash : UnitHash)
  | reference (t : Term)

inductive ProgramCommand where
  | register (name : String) (kind : StockKind) (captured : Term)
  | unregister (name : String)
  | inspectRegistry (name : String)
  | callNative (name : String) (args globals : List Term)
  | load (name : String) (image : List UInt8) (borrowed : Bool) (config : Config)
  | own (name : String)
  | inspectContext (name : String)
  | findUnit (name : String) (hash : UnitHash)
  | reference (name : String) (hash : UnitHash)
  | setGlobal (name : String) (slot : Nat) (t : Term)
  | call (name : String) (engine : Engine) (callee : Callee) (args : List Term)

/-- The frame as a value: the unit's hash, position and parameter count, the code, the
arguments, the number of globals and of known functions, and the width. -/
def Frame.describe (f : Frame) (globals functions : Nat) : Value :=
  .array
    [.str f.unit.hash.text,
      .int (Int64.ofNat f.unit.offset),
      .int (Int64.ofNat f.unit.params.toNat),
      .str (Hex.ofBytes f.code),
      .array f.args,
      .int (Int64.ofNat globals),
      .int (Int64.ofNat functions),
      .int (Int64.ofNat f.width.bits)]

/-- The executor that runs nothing and describes its frame. -/
def Frame.probe {σ φ : Type} : Executor σ φ := fun f s =>
  .ok (f.describe s.world.globals.length s.world.registry.size) s

namespace Engine

def executor : Engine → Executor StackMachine Stock
  | .machine => StackMachine.executor
  | .probe => Frame.probe

end Engine

namespace ProgramCommand

open Session

def setContext (name : String) (c : Context) : Act Unit :=
  modify fun s => { s with contexts := s.contexts.insert name c }

def withContext (name : String) (k : Context → Act Reply) : Act Reply := do
  found ((← get).contexts.get? name) k

/-- What a call in a session starts from. -/
def callSite (s : Session) (c : Context) : CallSite StackMachine Stock :=
  ⟨c, s.machine, s.registry, s.host⟩

/-- The session once a call has finished. -/
def afterCall (name : String) (site : CallSite StackMachine Stock) (s : Session) : Session :=
  { s with
    contexts := s.contexts.insert name site.context
    machine := site.executor
    registry := site.registry
    host := site.host }

/-- Makes a call on the context of that name and answers with its outcome, if it has one. -/
def runCall (name : String) (c : Context)
    (m : EStateM Stop (CallSite StackMachine Stock) Value) : Act Reply := fun s =>
  match m (callSite s c) with
  | .ok v site => .ok (.call (.ok v) site.context.globals site.executor.steps) (afterCall name site s)
  | .error (.raised e) site =>
      .ok (.call (.error e) site.context.globals site.executor.steps) (afterCall name site s)
  | .error stop site => .error stop (afterCall name site s)

def perform : ProgramCommand → Act Reply
  | .register name kind captured => do
      let v ← eval captured
      let known := (← get).registry.contains name
      modify fun s => { s with registry := s.registry.register name (.ofKind v kind) }
      return .flag known
  | .unregister name => do
      let known := (← get).registry.contains name
      modify fun s => { s with registry := s.registry.unregister name }
      return .flag known
  | .inspectRegistry name => do
      let r := (← get).registry
      return .registry (r.contains name) r.size r.summary
  | .callNative name args globals => do
      let args ← evalAll args
      let globals ← evalAll globals
      let s ← get
      match World.callNative s.width name args ⟨globals, s.registry, s.host⟩ with
      | .ok v w =>
          modify ({ · with registry := w.registry, host := w.host })
          return .nativeCall (.ok v) w.globals
      | .error e w =>
          modify ({ · with registry := w.registry, host := w.host })
          return .nativeCall (.error e) w.globals
  | .load name image borrowed config => do
      let id := (← get).nextContext
      let c ← await (Context.load ⟨id⟩ borrowed config image)
      modify ({ · with nextContext := id + 1 })
      setContext name c
      return .context c
  | .own name =>
      withContext name fun c => do
        setContext name c.own
        return .context c.own
  | .inspectContext name => withContext name fun c => return .context c
  | .findUnit name hash => withContext name fun c => return .unit (c.unit? hash) (c.unit hash)
  | .reference name hash =>
      withContext name fun c => return .value (← attempt (c.reference hash))
  | .setGlobal name slot t => do
      let v ← eval t
      withContext name fun c =>
        if slot < c.globals.length then do
          setContext name { c with globals := c.globals.set slot v }
          return .done
        else return .refused
  | .call name engine (.unit hash) args => do
      let args ← evalAll args
      withContext name fun c => runCall name c (Context.call engine.executor hash args)
  | .call name engine (.reference t) args => do
      let args ← evalAll args
      let target ← eval t
      withContext name fun c => runCall name c (Context.callReference engine.executor target args)

end ProgramCommand

end ScriptCore
