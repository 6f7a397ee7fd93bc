import Mathlib.Logic.Function.Basic
import ScriptCore.Context
import ScriptCore.Proofs.Machine.Assembly

/-!
# One machine for many calls

Calls in any contexts are made one after another with the same machine, and between them
the host does what it likes. A machine that starts with an empty stack ends every call with
one, and its step count decides nothing. So each call ends as it would have ended with a
new machine, and the count is the sum of what new machines would have counted.
-/

namespace ScriptCore

/-- The same end in another state. -/
def mapState {ε σ τ α : Type} (f : σ → τ) : EStateM.Result ε σ α → EStateM.Result ε τ α
  | .ok a s => .ok a (f s)
  | .error e s => .error e (f s)

namespace StackMachine

variable {ι φ : Type}

/-! ## One call -/

theorem run_of_fault [NativeFunction φ] (frame : Frame) {opcode : UInt8} {bytes : List UInt8}
    {f : Fault} (h : Instruction.decode opcode bytes = .error f) (s : State φ) :
    run frame (opcode :: bytes) s = .error (fault f) (tick s) := by
  rw [run]
  split
  · rename_i f' hfault
    obtain rfl : f = f' := by simpa using h.symm.trans hfault
    rfl
  · rename_i i rest hread
    rw [h] at hread
    contradiction

/-- Instructions that were started before a run change nothing but the count. -/
theorem outcome_run_add [NativeFunction φ] (frame : Frame) (code : List UInt8)
    (stack : List Value) (earlier steps : Nat) (world : World φ) :
    outcome (run frame code ⟨⟨stack, earlier + steps⟩, world⟩) =
      (outcome (run frame code ⟨⟨stack, steps⟩, world⟩)).after earlier := by
  -- The code after an instruction is shorter, and it starts from the same effect in both runs.
  induction hlength : code.length using Nat.strongRecOn generalizing code stack steps world with
  | ind n ih =>
      cases code with
      | nil =>
          rw [run]
          rfl
      | cons opcode bytes =>
          cases hdecode : Instruction.decode opcode bytes with
          | error f =>
              rw [run_of_fault frame hdecode, run_of_fault frame hdecode]
              rfl
          | ok read =>
              obtain ⟨i, rest⟩ := read
              rw [outcome_run_of_decode frame hdecode, outcome_run_of_decode frame hdecode]
              cases effect frame.width frame.args stack world i with
              | result v world' => rfl
              | failure e world' => rfl
              | next stack' world' =>
                  have hrest : rest.length < n := by
                    have := Instruction.length_decode_le hdecode
                    rw [List.length_cons] at hlength
                    omega
                  exact ih _ hrest rest stack' (steps + 1) world' rfl

/-- The end of a call whose machine started with an empty stack. -/
def Outcome.finished (o : Outcome φ) : EStateM.Result Stop (State φ) Value :=
  match o.result with
  | .ok v => .ok v ⟨⟨[], o.steps⟩, o.world⟩
  | .error e => .error e ⟨⟨[], o.steps⟩, o.world⟩

theorem cutBack_zero (s : State φ) : cutBack 0 s = ⟨⟨[], s.executor.steps⟩, s.world⟩ := by
  simp only [cutBack, setStack, Nat.sub_zero, List.drop_length]

/-- From an empty stack, a call ends with an empty stack. -/
theorem executor_of_empty_stack [NativeFunction φ] (frame : Frame) (steps : Nat)
    (world : World φ) :
    executor frame ⟨⟨[], steps⟩, world⟩ =
      (outcome (run frame frame.code ⟨⟨[], steps⟩, world⟩)).finished := by
  simp only [executor, List.length_nil]
  cases run frame frame.code ⟨⟨[], steps⟩, world⟩ with
  | ok v s => simp only [cutBack_zero, outcome, Outcome.finished]
  | error e s => simp only [cutBack_zero, outcome, Outcome.finished]

/-- A machine with an empty stack that had counted `earlier` instructions before those
that `m` counted. -/
def idleAfter (earlier : Nat) (m : StackMachine) : StackMachine :=
  ⟨[], earlier + m.steps⟩

/-- A used machine with an empty stack runs a call as a new machine does. -/
theorem executor_idleAfter [NativeFunction φ] (frame : Frame) (earlier : Nat) (world : World φ) :
    executor frame ⟨⟨[], earlier⟩, world⟩ =
      mapState (fun s => { s with executor := s.executor.idleAfter earlier })
        (executor frame ⟨.empty, world⟩) := by
  have hrun := outcome_run_add frame frame.code [] earlier 0 world
  rw [Nat.add_zero] at hrun
  rw [executor_of_empty_stack, hrun, empty, executor_of_empty_stack]
  generalize outcome (run frame frame.code ⟨⟨[], 0⟩, world⟩) = o
  obtain ⟨result, world', steps⟩ := o
  cases result with
  | ok v => rfl
  | error e => rfl

/-- Where a call started from, with its machine replaced. -/
def onMachine (f : StackMachine → StackMachine) (site : CallSite StackMachine φ) :
    CallSite StackMachine φ :=
  { site with executor := f site.executor }

theorem call_idleAfter [NativeFunction φ] (hash : UnitHash) (args : List Value) (earlier : Nat)
    (site : CallSite StackMachine φ) :
    Context.call executor hash args { site with executor := ⟨[], earlier⟩ } =
      mapState (onMachine (idleAfter earlier))
        (Context.call executor hash args { site with executor := .empty }) := by
  simp only [Context.call]
  cases site.context.unit hash with
  | error e => rfl
  | ok u =>
      dsimp only
      split
      · rfl
      · simp only [Context.enter, executor_idleAfter]
        cases executor (site.context.frame u args)
            ⟨.empty, site.context.globals, site.registry, site.host⟩ with
        | ok v r => rfl
        | error e r => rfl

theorem callReference_idleAfter [NativeFunction φ] (target : Value) (args : List Value)
    (earlier : Nat) (site : CallSite StackMachine φ) :
    Context.callReference executor target args { site with executor := ⟨[], earlier⟩ } =
      mapState (onMachine (idleAfter earlier))
        (Context.callReference executor target args { site with executor := .empty }) := by
  cases target with
  | unit ref =>
      simp only [Context.callReference]
      split
      · exact call_idleAfter ref.hash args earlier site
      · rfl
  | _ => rfl

/-! ## Histories -/

/-- All that calls can change beside the machine that runs them. -/
structure Surroundings (ι φ : Type) where
  contexts : ι → Context
  registry : Registry φ
  host : Host

inductive Callee where
  | unit (hash : UnitHash)
  | reference (v : Value)

/-- A call in one of the contexts. -/
structure Request (ι : Type) where
  context : ι
  callee : Callee
  args : List Value

inductive Event (ι φ : Type) where
  | call (request : Request ι)
  /-- Between calls the host may do anything, except reach into the machine. -/
  | host (act : Surroundings ι φ → Surroundings ι φ)

/-- How a call ended, and what it left behind. -/
structure Report (ι φ : Type) where
  result : Except Stop Value
  surroundings : Surroundings ι φ
  machine : StackMachine

namespace Request

def invoke [NativeFunction φ] (request : Request ι) :
    EStateM Stop (CallSite StackMachine φ) Value :=
  match request.callee with
  | .unit hash => Context.call executor hash request.args
  | .reference v => Context.callReference executor v request.args

/-- What the end of a call amounts to. -/
def report [DecidableEq ι] (request : Request ι) (s : Surroundings ι φ) :
    EStateM.Result Stop (CallSite StackMachine φ) Value → Report ι φ
  | .ok v site =>
      ⟨.ok v, ⟨Function.update s.contexts request.context site.context, site.registry, site.host⟩,
        site.executor⟩
  | .error e site =>
      ⟨.error e, ⟨Function.update s.contexts request.context site.context, site.registry, site.host⟩,
        site.executor⟩

/-- Makes the call with a machine. -/
def perform [DecidableEq ι] [NativeFunction φ] (request : Request ι) (machine : StackMachine)
    (s : Surroundings ι φ) : Report ι φ :=
  request.report s
    (request.invoke ⟨s.contexts request.context, machine, s.registry, s.host⟩)

theorem invoke_idleAfter [NativeFunction φ] (request : Request ι) (earlier : Nat)
    (site : CallSite StackMachine φ) :
    request.invoke { site with executor := ⟨[], earlier⟩ } =
      mapState (onMachine (idleAfter earlier))
        (request.invoke { site with executor := .empty }) := by
  cases hcallee : request.callee with
  | unit hash =>
      simp only [invoke, hcallee]
      exact call_idleAfter hash request.args earlier site
  | reference v =>
      simp only [invoke, hcallee]
      exact callReference_idleAfter v request.args earlier site

theorem perform_idleAfter [DecidableEq ι] [NativeFunction φ] (request : Request ι)
    (earlier : Nat) (s : Surroundings ι φ) :
    request.perform ⟨[], earlier⟩ s =
      { request.perform .empty s with
        machine := (request.perform .empty s).machine.idleAfter earlier } := by
  have hinvoke := request.invoke_idleAfter earlier
    ⟨s.contexts request.context, .empty, s.registry, s.host⟩
  simp only [perform, hinvoke]
  cases request.invoke ⟨s.contexts request.context, .empty, s.registry, s.host⟩ with
  | ok v site => rfl
  | error e site => rfl

end Request

/-- The reports of all calls, each made with the machine as the one before left it. A call
without a result is the last, and is not reported. -/
def sharedReports [DecidableEq ι] [NativeFunction φ] (machine : StackMachine)
    (s : Surroundings ι φ) : List (Event ι φ) → List (Report ι φ)
  | [] => []
  | .host act :: rest => sharedReports machine (act s) rest
  | .call request :: rest =>
      let report := request.perform machine s
      if hasResult report.result then
        report :: sharedReports report.machine report.surroundings rest
      else []

/-- The reports of all calls, each made with a new machine. -/
def freshReports [DecidableEq ι] [NativeFunction φ] (s : Surroundings ι φ) :
    List (Event ι φ) → List (Report ι φ)
  | [] => []
  | .host act :: rest => freshReports (act s) rest
  | .call request :: rest =>
      let report := request.perform .empty s
      if hasResult report.result then report :: freshReports report.surroundings rest
      else []

/-- How many instructions the first `n` calls started, each on its own machine. -/
def stepsOfFirst (reports : List (Report ι φ)) (n : Nat) : Nat :=
  ((reports.take n).map fun r => r.machine.steps).sum

theorem sharedReports_getElem? [DecidableEq ι] [NativeFunction φ] (earlier : Nat)
    (s : Surroundings ι φ) (events : List (Event ι φ)) (k : Nat) :
    (sharedReports ⟨[], earlier⟩ s events)[k]? =
      (freshReports s events)[k]?.map fun r =>
        { r with machine := ⟨[], earlier + stepsOfFirst (freshReports s events) (k + 1)⟩ } := by
  induction events generalizing earlier s k with
  | nil => rfl
  | cons event rest ih =>
      cases event with
      | host act => exact ih earlier (act s) k
      | call request =>
          simp only [sharedReports, freshReports, request.perform_idleAfter earlier s, idleAfter]
          split
          · cases k with
            | zero => simp [stepsOfFirst]
            | succ k =>
                simp only [List.getElem?_cons_succ, ih, stepsOfFirst, List.take_succ_cons,
                  List.map_cons, List.sum_cons, Nat.add_assoc]
          · rfl

/-- Calls that share a machine do not interfere. Whatever calls were made before, a call
has the result and leaves the contexts, host functions and host storage that it has and
leaves with a new machine. The shared machine's stack is then empty, and its count is
the sum over the calls so far of what their new machines count. -/
theorem shared_machine_isolates_calls [DecidableEq ι] [NativeFunction φ]
    (s : Surroundings ι φ) (events : List (Event ι φ)) (k : Nat) :
    (sharedReports .empty s events)[k]? =
      (freshReports s events)[k]?.map fun r =>
        { r with machine := ⟨[], stepsOfFirst (freshReports s events) (k + 1)⟩ } := by
  have h := sharedReports_getElem? 0 s events k
  rw [Nat.zero_add] at h
  exact h

end StackMachine

end ScriptCore
