import ScriptCore.Proofs.Arithmetic.Assignment
import ScriptCore.Proofs.Host.Confinement
import ScriptCore.Proofs.Machine.Turns

/-!
# Runs at 32 bits stay in range

At a working width of 32 bits every instruction that makes an integer reduces it, and the
others only move values about. So a run that starts with confined values, and whose host
functions hand it confined values only, has confined values on its stack at every turn,
and leaves them in the globals and in its result.
-/

namespace ScriptCore

namespace Arithmetic

variable {h : Host} {op : BinaryOperator} {lhs rhs v : Value}

/-- Whatever the operands, an operator gives an integer in range, a float or a string. -/
theorem confined_binary (hv : binary .w32 op lhs rhs = .ok v) : h.Confined v := by
  obtain ⟨a, b, k, rfl, rfl, -⟩ | ⟨x, rfl⟩ | ⟨s, rfl⟩ := cases_of_binary hv
  · obtain ⟨n, rfl, hn⟩ := inRange_of_binary hv
    exact Host.confined_int.mpr hn
  · exact Host.confined_float
  · exact Host.confined_str

theorem confined_assign {new : Value} (hv : assign .w32 op rhs lhs = .ok v new) :
    h.Confined new := by
  rw [assign_eq_storing, storing_eq_ok_iff] at hv
  obtain ⟨hresult, rfl⟩ := hv
  split at hresult
  · exact confined_binary hresult
  · contradiction

end Arithmetic

/-- What a change of the world has put into a global, a host value or a field. -/
inductive World.Stored {φ : Type} (before after : World φ) : Value → Prop
  | global {x : Value} (held : x ∈ after.globals) (new : x ∉ before.globals) :
      Stored before after x
  | host {x : Value} (stored : Host.Stored before.host after.host x) : Stored before after x

namespace StackMachine

variable {φ : Type} {args stack : List Value} {world : World φ} {v : Value}

/-! ## One instruction -/

/-- The arguments, the stack and the globals are confined. -/
structure Secure (args stack : List Value) (world : World φ) : Prop where
  args : ∀ v ∈ args, world.host.Confined v
  stack : ∀ v ∈ stack, world.host.Confined v
  globals : ∀ v ∈ world.globals, world.host.Confined v

namespace Secure

theorem of_subset (hs : Secure args stack world) {stack' : List Value}
    (hsubset : ∀ v ∈ stack', v ∈ stack) : Secure args stack' world :=
  ⟨hs.args, fun v hv => hs.stack v (hsubset v hv), hs.globals⟩

theorem tail (hs : Secure args (v :: stack) world) : Secure args stack world :=
  hs.of_subset fun _ => List.mem_cons_of_mem v

theorem head (hs : Secure args (v :: stack) world) : world.host.Confined v :=
  hs.stack v List.mem_cons_self

theorem push (hs : Secure args stack world) (hv : world.host.Confined v) :
    Secure args (v :: stack) world := by
  refine ⟨hs.args, ?_, hs.globals⟩
  intro u hu
  rcases List.mem_cons.mp hu with rfl | hmem
  · exact hv
  · exact hs.stack u hmem

theorem setGlobal (hs : Secure args stack world) (slot : Nat) (hv : world.host.Confined v) :
    Secure args stack { world with globals := world.globals.set slot v } := by
  refine ⟨hs.args, hs.stack, ?_⟩
  intro u hu
  rcases List.mem_or_eq_of_mem_set hu with hold | rfl
  · exact hs.globals u hold
  · exact hv

theorem setHost (hs : Secure args stack world) {host : Host}
    (hkeeps : world.host.KeepsConfined host) : Secure args stack { world with host } :=
  ⟨fun v hv => hkeeps v (hs.args v hv), fun v hv => hkeeps v (hs.stack v hv),
    fun v hv => hkeeps v (hs.globals v hv)⟩

end Secure

/-- Whatever a call of a host function returns or stores is confined. -/
structure CallConfined (before : World φ) (r : EStateM.Result ScriptError (World φ) Value) :
    Prop where
  returned : ∀ v after, r = .ok v after → after.host.Confined v
  stored : ∀ x, before.Stored (stateAfter r) x → (stateAfter r).host.Confined x

theorem Secure.afterCall (hs : Secure args stack world)
    {r : EStateM.Result ScriptError (World φ) Value} (hcall : CallConfined world r) :
    Secure args stack (stateAfter r) := by
  have hkeeps : world.host.KeepsConfined (stateAfter r).host :=
    Host.keepsConfined_of_stored fun x hx => .inr (hcall.stored x (.host hx))
  refine ⟨fun v hv => hkeeps v (hs.args v hv), fun v hv => hkeeps v (hs.stack v hv), ?_⟩
  intro v hv
  by_cases hold : v ∈ world.globals
  · exact hkeeps v (hs.globals v hold)
  · exact hcall.stored v (.global hv hold)

/-- An instruction leaves what is confined, and so is a result. -/
def Effect.Secured (args : List Value) : Effect φ → Prop
  | .next stack world => Secure args stack world
  | .result v world => world.host.Confined v ∧ Secure args [] world
  | .failure _ world => Secure args [] world

theorem secured_failure (hs : Secure args stack world) (e : Stop) :
    (Effect.failure e world).Secured args :=
  hs.of_subset nofun

theorem secured_pushing (hs : Secure args stack world) {r : Except Stop Value}
    (hr : ∀ v, r = .ok v → world.host.Confined v) :
    (Effect.pushing stack world r).Secured args := by
  cases r with
  | ok v => exact hs.push (hr v rfl)
  | error e => exact secured_failure hs e

theorem confined_getD {host : Host} {vs : List Value} (hvs : ∀ v ∈ vs, host.Confined v)
    (i : Nat) : host.Confined (vs[i]?.getD .null) := by
  cases hi : vs[i]? with
  | none => exact Host.confined_null
  | some v => exact hvs v (List.mem_of_getElem? hi)

/-- A failed write has left the host as it was. -/
theorem secured_writeIndex {value key target : Value} {rest : List Value}
    (hs : Secure args (value :: key :: target :: rest) world) :
    Effect.Secured args (match Access.writeIndex key value ⟨target, world.host⟩ with
      | .ok _ place => .next (place.target :: rest) { world with host := place.host }
      | .error e place => .failure e { world with host := place.host }) := by
  split
  · rename_i place hwrite
    obtain ⟨hkeeps, hplace⟩ :=
      Access.confined_writeIndex hs.tail.tail.head hs.tail.head hs.head hwrite
    exact (hs.tail.tail.tail.setHost hkeeps).push hplace
  · rename_i e place hwrite
    have hhost : place.host = world.host := by
      rcases Access.write_error hwrite with rfl | ⟨-, -, rfl⟩
      · rfl
      · rfl
    rw [hhost]
    exact secured_failure hs e

/-- Every instruction keeps a secure state, and returns a confined value if it returns. -/
theorem secured_effect [NativeFunction φ] (i : Instruction) (hs : Secure args stack world)
    (hnative : ∀ name argc, i = .native name argc → argc.toNat ≤ stack.length →
      CallConfined world (world.callNative .w32 name (stack.take argc.toNat).reverse)) :
    (effect .w32 args stack world i).Secured args := by
  cases i with
  | ret =>
      refine ⟨?_, hs.of_subset nofun⟩
      rw [List.head?_eq_getElem?]
      exact confined_getD hs.stack 0
  | null => exact hs.push Host.confined_null
  | arg index => exact hs.push (confined_getD hs.args index.toNat)
  | int n => exact hs.push (Host.confined_int.mpr (Width.w32.inRange_wrap n))
  | str s => exact hs.push Host.confined_str
  | loadGlobal slot =>
      dsimp only [effect]
      split
      · exact secured_failure hs _
      · rename_i v hv
        exact hs.push (hs.globals v (List.mem_of_getElem? hv))
  | storeGlobal slot =>
      dsimp only [effect]
      split
      · exact secured_failure hs _
      · exact secured_failure hs _
      · exact hs.tail.setGlobal slot hs.head
  | addGlobal slot =>
      dsimp only [effect]
      split
      · exact secured_failure hs _
      · exact secured_failure hs _
      · split
        · rename_i hassign
          exact hs.tail.setGlobal slot (Arithmetic.confined_assign hassign)
        · exact secured_failure hs _
  | binary op =>
      dsimp only [effect]
      split
      · apply secured_pushing hs.tail.tail
        intro v hv
        exact Arithmetic.confined_binary (raising_eq_ok_iff.mp hv)
      · exact secured_failure hs _
  | equal =>
      dsimp only [effect]
      split
      · apply secured_pushing hs.tail.tail
        intro v hv
        obtain ⟨b, -, rfl⟩ := exists_of_map_eq_ok (raising_eq_ok_iff.mp hv)
        apply Host.confined_int.mpr
        cases b <;> decide
      · exact secured_failure hs _
  | native name argc =>
      dsimp only [effect]
      split
      · rename_i hargs
        have hcall := hnative name argc rfl hargs
        have hrest : Secure args (stack.drop argc.toNat) world :=
          hs.of_subset fun u => List.mem_of_mem_drop
        have hafter := hrest.afterCall hcall
        split
        · rename_i v world' hr
          rw [hr] at hafter
          exact hafter.push (hcall.returned v world' hr)
        · rename_i e world' hr
          rw [hr] at hafter
          exact secured_failure hafter e
      · exact secured_failure hs _
  | pop =>
      dsimp only [effect]
      split
      · exact hs.tail
      · exact secured_failure hs _
  | readIndex =>
      dsimp only [effect]
      split
      · apply secured_pushing hs.tail.tail
        intro v hv
        exact Access.confined_readIndex hs.tail.head hv
      · exact secured_failure hs _
  | writeIndex =>
      dsimp only [effect]
      split
      · exact secured_writeIndex hs
      · exact secured_failure hs _

/-! ## Whole runs -/

/-- Whatever the host functions that a run calls return or store is confined. -/
def NativesConfined [NativeFunction φ] (frame : Frame) (s : State φ) : Prop :=
  ∀ opcode bytes t name argc rest, Comes frame s (opcode :: bytes) t →
    Instruction.decode opcode bytes = .ok (.native name argc, rest) →
    argc.toNat ≤ t.executor.stack.length →
    CallConfined t.world
      (t.world.callNative frame.width name (t.executor.stack.take argc.toNat).reverse)

/-- The globals and the result of a finished run are confined. -/
structure EndsConfined (r : EStateM.Result Stop (State φ) Value) : Prop where
  globals : ∀ v ∈ (stateAfter r).world.globals, (stateAfter r).world.host.Confined v
  result : ∀ v t, r = .ok v t → t.world.host.Confined v

theorem endsConfined_error {e : Stop} {t : State φ}
    (hglobals : ∀ v ∈ t.world.globals, t.world.host.Confined v) :
    EndsConfined (.error e t : EStateM.Result Stop (State φ) Value) := by
  refine ⟨hglobals, ?_⟩
  intro v t' heq
  contradiction

theorem endsConfined_ok {t : State φ} (hglobals : ∀ v ∈ t.world.globals, t.world.host.Confined v)
    (hv : t.world.host.Confined v) :
    EndsConfined (.ok v t : EStateM.Result Stop (State φ) Value) := by
  refine ⟨hglobals, ?_⟩
  intro u t' heq
  obtain ⟨rfl, rfl⟩ := EStateM.Result.ok.inj heq
  exact hv

section Runs

variable [NativeFunction φ] {frame : Frame} {s t : State φ} {opcode : UInt8}
  {bytes rest code : List UInt8} {i : Instruction}

theorem secured_execute (hwidth : frame.width = .w32) (hnatives : NativesConfined frame s)
    (hcomes : Comes frame s (opcode :: bytes) t)
    (hread : Instruction.decode opcode bytes = .ok (i, rest))
    (ht : Secure frame.args t.executor.stack t.world) :
    (observe (execute frame i (tick t))).1.Secured frame.args := by
  rw [observe_execute, hwidth]
  apply secured_effect i ht
  rintro name argc rfl hargs
  rw [← hwidth]
  exact hnatives opcode bytes t name argc rest hcomes hread hargs

theorem secure_of_comes (hwidth : frame.width = .w32)
    (hstart : Secure frame.args s.executor.stack s.world) (hnatives : NativesConfined frame s)
    (hcomes : Comes frame s code t) : Secure frame.args t.executor.stack t.world := by
  induction hcomes with
  | start => exact hstart
  | turn hbefore hread hdone ih =>
      have hturn := secured_execute hwidth hnatives hbefore hread ih
      rwa [hdone] at hturn

theorem endsConfined_run (hwidth : frame.width = .w32)
    (hstart : Secure frame.args s.executor.stack s.world) (hnatives : NativesConfined frame s) :
    EndsConfined (run frame frame.code s) := by
  -- Only configurations of this run are secure, so the induction carries where it is.
  refine run_induction frame (motive := fun code t r => Comes frame s code t → EndsConfined r)
    ?ended ?faulty ?result ?failure ?next frame.code s .start
  case ended =>
    intro t hcomes
    exact endsConfined_error (secure_of_comes hwidth hstart hnatives hcomes).globals
  case faulty =>
    intro _ _ t _ _ hcomes
    have ht := secure_of_comes hwidth hstart hnatives hcomes
    exact endsConfined_error (t := tick t) ht.globals
  case result =>
    intro _ _ t i _ v t' hread hdone hcomes
    have ht := secure_of_comes hwidth hstart hnatives hcomes
    have hturn := secured_execute hwidth hnatives hcomes hread ht
    rw [hdone] at hturn
    exact endsConfined_ok hturn.2.globals hturn.1
  case failure =>
    intro _ _ t i _ e t' hread hdone hcomes
    have ht := secure_of_comes hwidth hstart hnatives hcomes
    have hturn := secured_execute hwidth hnatives hcomes hread ht
    rw [hdone] at hturn
    exact endsConfined_error (Secure.globals hturn)
  case next =>
    intro _ _ t i _ t' r hread hdone ih hcomes
    exact ih (hcomes.turn hread hdone)

theorem endsConfined_executor (hrun : EndsConfined (run frame frame.code s)) :
    EndsConfined (executor frame s) := by
  rw [executor]
  cases hend : run frame frame.code s with
  | ok v t =>
      rw [hend] at hrun
      exact endsConfined_ok hrun.globals (hrun.result v t rfl)
  | error e t =>
      rw [hend] at hrun
      exact endsConfined_error hrun.globals

end Runs

/-- At 32 bits a call that starts with confined values, and whose host functions return and
store confined values only, has confined values on its stack before every instruction, and
its globals and result are confined when it has ended. -/
theorem call_at_32_bits_stays_in_range [NativeFunction φ] (frame : Frame) (s : State φ)
    (hwidth : frame.width = .w32) (hstart : Secure frame.args s.executor.stack s.world)
    (hnatives : NativesConfined frame s) :
    (∀ code t, Comes frame s code t → run frame code t = run frame frame.code s ∧
      ∀ v ∈ t.executor.stack, t.world.host.Confined v) ∧
    EndsConfined (executor frame s) := by
  constructor
  · intro code t hcomes
    exact ⟨hcomes.run_eq, (secure_of_comes hwidth hstart hnatives hcomes).stack⟩
  · exact endsConfined_executor (endsConfined_run hwidth hstart hnatives)

/-- A call at 32 bits whose literal, 2 ^ 31, is out of range. -/
def literalFrame : Frame :=
  ⟨⟨.ofName "main", 0, 0⟩,
    [0x03, 0x80, 0x80, 0x80, 0x80, 0x08, 0x0d, 0, 0x02, 0, 0x09, 1, 1, 0x66, 0x00],
    [.array [.int 7]], .w32⟩

def literalStart : State Stock :=
  ⟨.empty, [.int (-1)], Registry.empty.register "f" .pack, .empty⟩

theorem comes_literalFrame {code : List UInt8} {t : State Stock}
    (hcomes : Comes literalFrame literalStart code t) :
    (code, t) ∈
      [(literalFrame.code, literalStart),
        ([0x0d, 0, 0x02, 0, 0x09, 1, 1, 0x66, 0x00],
          ⟨⟨[.int (-2147483648)], 1⟩, literalStart.world⟩),
        ([0x02, 0, 0x09, 1, 1, 0x66, 0x00],
          ⟨⟨[], 2⟩, { literalStart.world with globals := [.int 2147483647] }⟩),
        ([0x09, 1, 1, 0x66, 0x00],
          ⟨⟨[.array [.int 7]], 3⟩, { literalStart.world with globals := [.int 2147483647] }⟩),
        ([0x00],
          ⟨⟨[.array [.array [.int 7]]], 4⟩,
            { literalStart.world with globals := [.int 2147483647] }⟩)] := by
  induction hcomes with
  | start => exact .head _
  | turn _ hread hdone ih =>
      simp only [List.mem_cons, List.not_mem_nil, or_false, Prod.mk.injEq] at ih
      rcases ih with ⟨hcode, rfl⟩ | ⟨hcode, rfl⟩ | ⟨hcode, rfl⟩ | ⟨hcode, rfl⟩ | ⟨hcode, rfl⟩ <;>
        obtain ⟨rfl, rfl⟩ := List.cons.inj hcode <;>
        obtain ⟨rfl, rfl⟩ := Prod.mk.inj (Except.ok.inj hread)
      · obtain ⟨-, rfl⟩ := EStateM.Result.ok.inj hdone
        exact .tail _ (.head _)
      · obtain ⟨-, rfl⟩ := EStateM.Result.ok.inj hdone
        exact .tail _ (.tail _ (.head _))
      · obtain ⟨-, rfl⟩ := EStateM.Result.ok.inj hdone
        exact .tail _ (.tail _ (.tail _ (.head _)))
      · obtain ⟨-, rfl⟩ := EStateM.Result.ok.inj hdone
        exact .tail _ (.tail _ (.tail _ (.tail _ (.head _))))
      · nomatch hdone

/-- The literal is reduced, so is its sum with the global, and a host function hands back the
argument in an array. -/
theorem call_with_literal_stays_in_range :
    (∀ code t, Comes literalFrame literalStart code t →
      run literalFrame code t = run literalFrame literalFrame.code literalStart ∧
        ∀ v ∈ t.executor.stack, t.world.host.Confined v) ∧
    EndsConfined (executor literalFrame literalStart) := by
  have hitem : ∀ h : Host, h.Confined (.array [.int 7]) := by
    intro h
    apply Host.confined_array.mpr
    intro v hv
    obtain rfl := List.mem_singleton.mp hv
    exact Host.confined_int.mpr (by decide)
  apply call_at_32_bits_stays_in_range
  · rfl
  · refine ⟨?_, nofun, ?_⟩
    · intro v hv
      obtain rfl := List.mem_singleton.mp hv
      exact hitem _
    · intro v hv
      obtain rfl := List.mem_singleton.mp hv
      exact Host.confined_int.mpr (by decide)
  · intro opcode bytes t name argc rest hcomes hread hargs
    have hturn := comes_literalFrame hcomes
    simp only [List.mem_cons, List.not_mem_nil, or_false, Prod.mk.injEq] at hturn
    rcases hturn with ⟨hcode, rfl⟩ | ⟨hcode, rfl⟩ | ⟨hcode, rfl⟩ | ⟨hcode, rfl⟩ | ⟨hcode, rfl⟩ <;>
      obtain ⟨rfl, rfl⟩ := List.cons.inj hcode
    · nomatch hread
    · nomatch hread
    · nomatch hread
    · obtain ⟨hcall, -⟩ := Prod.mk.inj (Except.ok.inj hread)
      obtain ⟨rfl, rfl⟩ := Instruction.native.inj hcall
      constructor
      · intro v after hreturned
        obtain ⟨rfl, rfl⟩ := EStateM.Result.ok.inj hreturned
        apply Host.confined_array.mpr
        intro u hu
        obtain rfl := List.mem_singleton.mp hu
        exact hitem _
      · rintro x (⟨hheld, hnew⟩ | ⟨hheld, hnew⟩ | ⟨hheld, hnew⟩) <;>
        exact absurd hheld hnew
    · nomatch hread

end StackMachine

end ScriptCore
