import ScriptCore.Proofs.Machine.Sharing

/-!
# Turns of the machine

A run is a sequence of turns, each with the effect of one instruction. An instruction
leaves the world alone, stores to a global, calls a host function or writes inside a
value. So what holds of these four, and carries over from turn to turn, holds of runs. It
fails for lack of operands or of a global, or as the operation fails that it stands for.
-/

namespace ScriptCore

/-- Where a computation ends, failed or not. -/
def stateAfter {ε σ α : Type} : EStateM.Result ε σ α → σ
  | .ok _ s => s
  | .error _ s => s

/-- A call of a host function leaves the world alone, or as the function has made it. -/
theorem World.stateAfter_callNative {φ : Type} [NativeFunction φ] (width : Width) (name : String)
    (args : List Value) (world : World φ) :
    stateAfter (world.callNative width name args) = world ∨
      ∃ f, stateAfter (world.callNative width name args) =
        world.afterCall name
          (stateAfter (NativeFunction.call width args ⟨f, world.globals, world.host⟩)) := by
  rw [callNative]
  split
  · exact .inl rfl
  · rename_i f hf
    refine .inr ⟨f, ?_⟩
    cases NativeFunction.call width args ⟨f, world.globals, world.host⟩ <;> rfl

namespace StackMachine

variable {φ : Type}

def Effect.world : Effect φ → World φ
  | .next _ world => world
  | .result _ world => world
  | .failure _ world => world

/-- What an instruction can make of the world. -/
inductive Changes [NativeFunction φ] (width : Width) (stack : List Value) (world : World φ) :
    Instruction → World φ → Prop
  | nothing (i : Instruction) : Changes width stack world i world
  | global (i : Instruction) (slot : Nat) (v : Value) :
      Changes width stack world i { world with globals := world.globals.set slot v }
  | native (name : String) (argc : UInt8) :
      Changes width stack world (.native name argc)
        (stateAfter (world.callNative width name (stack.take argc.toNat).reverse))
  | write {value key target : Value} {rest : List Value}
      (operands : stack = value :: key :: target :: rest) :
      Changes width stack world .writeIndex
        { world with
          host := (stateAfter (Access.writeIndex key value ⟨target, world.host⟩)).host }

theorem changes_pushing [NativeFunction φ] (width : Width) (stack : List Value)
    (world : World φ) (i : Instruction) (rest : List Value) (r : Except Stop Value) :
    Changes width stack world i (Effect.pushing rest world r).world := by
  cases r with
  | ok v => exact .nothing i
  | error e => exact .nothing i

/-- The world after an instruction. -/
theorem changes_effect [NativeFunction φ] (width : Width) (args stack : List Value)
    (world : World φ) (i : Instruction) :
    Changes width stack world i (effect width args stack world i).world := by
  cases i with
  | ret => exact .nothing _
  | null => exact .nothing _
  | arg index => exact .nothing _
  | int n => exact .nothing _
  | str s => exact .nothing _
  | loadGlobal slot =>
      dsimp only [effect]
      split
      · exact .nothing _
      · exact .nothing _
  | storeGlobal slot =>
      dsimp only [effect]
      split
      · exact .nothing _
      · exact .nothing _
      · exact .global _ slot _
  | addGlobal slot =>
      dsimp only [effect]
      split
      · exact .nothing _
      · exact .nothing _
      · split
        · exact .global _ slot _
        · exact .nothing _
  | binary op =>
      dsimp only [effect]
      split
      · exact changes_pushing width _ world _ _ _
      · exact .nothing _
  | equal =>
      dsimp only [effect]
      split
      · exact changes_pushing width _ world _ _ _
      · exact .nothing _
  | native name argc =>
      have hchange : Changes width stack world (.native name argc) _ := .native name argc
      dsimp only [effect]
      split
      · split
        · rename_i hcall
          rw [hcall] at hchange
          exact hchange
        · rename_i hcall
          rw [hcall] at hchange
          exact hchange
      · exact .nothing _
  | pop =>
      dsimp only [effect]
      split
      · exact .nothing _
      · exact .nothing _
  | readIndex =>
      dsimp only [effect]
      split
      · exact changes_pushing width _ world _ _ _
      · exact .nothing _
  | writeIndex =>
      dsimp only [effect]
      split
      · rename_i value key target rest
        have hchange : Changes width (value :: key :: target :: rest) world .writeIndex _ :=
          .write rfl
        split
        · rename_i hwrite
          rw [hwrite] at hchange
          exact hchange
        · rename_i hwrite
          rw [hwrite] at hchange
          exact hchange
      · exact .nothing _

/-- What an instruction can fail for: it lacks operands or a global, or the operation that it
stands for fails. -/
inductive FailsFor [NativeFunction φ] (width : Width) (stack : List Value) (world : World φ) :
    Instruction → Stop → Prop
  | underflow (i : Instruction) : FailsFor width stack world i (.raised underflow)
  | noSlot (i : Instruction) (slot : Nat) :
      FailsFor width stack world i
        (.raised (.positionOutOfRange slot world.globals.length))
  | assign {slot : Nat} {rhs old v : Value} {e : ScriptError}
      (error : Arithmetic.assign width .add rhs old = .error e v) :
      FailsFor width stack world (.addGlobal slot) (.raised e)
  | binary {op : BinaryOperator} {lhs rhs : Value} {e : ScriptError}
      (error : Arithmetic.binary width op lhs rhs = .error e) :
      FailsFor width stack world (.binary op) (.raised e)
  | equal {lhs rhs : Value} {e : ScriptError} (error : Comparison.equals lhs rhs = .error e) :
      FailsFor width stack world .equal (.raised e)
  | native {name : String} {argc : UInt8} {e : ScriptError} {world' : World φ}
      (error : world.callNative width name (stack.take argc.toNat).reverse = .error e world') :
      FailsFor width stack world (.native name argc) (.raised e)
  | read {key target : Value} {rest : List Value} {stop : Stop}
      (operands : stack = key :: target :: rest)
      (error : Access.readIndex world.host target key = .error stop) :
      FailsFor width stack world .readIndex stop
  | write {value key target : Value} {rest : List Value} {stop : Stop} {place : Place}
      (operands : stack = value :: key :: target :: rest)
      (error : Access.writeIndex key value ⟨target, world.host⟩ = .error stop place) :
      FailsFor width stack world .writeIndex stop

theorem eq_error_of_pushing {stack : List Value} {world world' : World φ} {r : Except Stop Value}
    {stop : Stop} (h : Effect.pushing stack world r = .failure stop world') : r = .error stop := by
  cases r with
  | ok v => contradiction
  | error stop' => rw [(Effect.failure.inj h).1]

theorem failsFor_of_underflow [NativeFunction φ] {width : Width} {stack : List Value}
    {world world' : World φ} {i : Instruction} {stop : Stop}
    (h : Effect.underflow world = .failure stop world') : FailsFor width stack world i stop := by
  obtain ⟨rfl, -⟩ := Effect.failure.inj h
  exact .underflow i

theorem failsFor_of_noSlot [NativeFunction φ] {width : Width} {stack : List Value}
    {world world' : World φ} {i : Instruction} {stop : Stop} {slot : Nat}
    (h : Effect.noSlot slot world = .failure stop world') : FailsFor width stack world i stop := by
  obtain ⟨rfl, -⟩ := Effect.failure.inj h
  exact .noSlot i slot

/-- The failures of an instruction. -/
theorem failsFor_of_effect [NativeFunction φ] {width : Width} {args stack : List Value}
    {world world' : World φ} {i : Instruction} {stop : Stop}
    (h : effect width args stack world i = .failure stop world') :
    FailsFor width stack world i stop := by
  cases i with
  | loadGlobal slot =>
      dsimp only [effect] at h
      split at h
      · exact failsFor_of_noSlot h
      · contradiction
  | storeGlobal slot =>
      dsimp only [effect] at h
      split at h
      · exact failsFor_of_noSlot h
      · exact failsFor_of_underflow h
      · contradiction
  | addGlobal slot =>
      dsimp only [effect] at h
      split at h
      · exact failsFor_of_noSlot h
      · exact failsFor_of_underflow h
      · split at h
        · contradiction
        · rename_i hassign
          obtain ⟨rfl, -⟩ := Effect.failure.inj h
          exact .assign hassign
  | binary op =>
      dsimp only [effect] at h
      split at h
      · obtain ⟨e, herror, rfl⟩ := raising_eq_error_iff.mp (eq_error_of_pushing h)
        exact .binary herror
      · exact failsFor_of_underflow h
  | equal =>
      dsimp only [effect] at h
      split at h
      · rename_i rhs lhs rest
        obtain ⟨e, hmap, rfl⟩ := raising_eq_error_iff.mp (eq_error_of_pushing h)
        cases hequals : Comparison.equals lhs rhs with
        | ok b =>
            rw [hequals] at hmap
            contradiction
        | error e' =>
            rw [hequals] at hmap
            obtain rfl := Except.error.inj hmap
            exact .equal hequals
      · exact failsFor_of_underflow h
  | native name argc =>
      dsimp only [effect] at h
      split at h
      · split at h
        · contradiction
        · rename_i hcall
          obtain ⟨rfl, -⟩ := Effect.failure.inj h
          exact .native hcall
      · exact failsFor_of_underflow h
  | pop =>
      dsimp only [effect] at h
      split at h
      · contradiction
      · exact failsFor_of_underflow h
  | readIndex =>
      dsimp only [effect] at h
      split at h
      · exact .read rfl (eq_error_of_pushing h)
      · exact failsFor_of_underflow h
  | writeIndex =>
      dsimp only [effect] at h
      split at h
      · split at h
        · contradiction
        · rename_i hwrite
          obtain ⟨rfl, -⟩ := Effect.failure.inj h
          exact .write rfl hwrite
      · exact failsFor_of_underflow h
  | _ => contradiction

theorem failsFor_of_execute [NativeFunction φ] {frame : Frame} {i : Instruction}
    {s s' : State φ} {stop : Stop} (h : execute frame i s = .error stop s') :
    FailsFor frame.width s.executor.stack s.world i stop := by
  have hobserve := congrArg Prod.fst (observe_execute frame i s)
  rw [h] at hobserve
  exact failsFor_of_effect hobserve.symm

/-- What executing an instruction makes of the world is the instruction's effect on it. -/
theorem world_execute [NativeFunction φ] (frame : Frame) (i : Instruction) (s : State φ) :
    (stateAfter (execute frame i s)).world =
      (effect frame.width frame.args s.executor.stack s.world i).world := by
  have hobserve := congrArg Prod.fst (observe_execute frame i s)
  rcases hexecute : execute frame i s with ⟨_ | v, s'⟩ | ⟨e, s'⟩ <;>
  · rw [hexecute] at hobserve
    exact congrArg Effect.world hobserve

/-- Induction over the turns of a run. The code may be at its end, or be no code; its next
instruction may be the last one, or leave a state to the code after it. -/
theorem run_induction [NativeFunction φ] (frame : Frame)
    {motive : List UInt8 → State φ → EStateM.Result Stop (State φ) Value → Prop}
    (ended : ∀ s, motive [] s (.error (fault .truncated) s))
    (faulty : ∀ opcode bytes s f, Instruction.decode opcode bytes = .error f →
      motive (opcode :: bytes) s (.error (fault f) (tick s)))
    (result : ∀ opcode bytes s i rest v s', Instruction.decode opcode bytes = .ok (i, rest) →
      execute frame i (tick s) = .ok (some v) s' → motive (opcode :: bytes) s (.ok v s'))
    (failure : ∀ opcode bytes s i rest e s', Instruction.decode opcode bytes = .ok (i, rest) →
      execute frame i (tick s) = .error e s' → motive (opcode :: bytes) s (.error e s'))
    (next : ∀ opcode bytes s i rest s' r, Instruction.decode opcode bytes = .ok (i, rest) →
      execute frame i (tick s) = .ok none s' → motive rest s' r → motive (opcode :: bytes) s r)
    (code : List UInt8) (s : State φ) : motive code s (run frame code s) := by
  induction hlength : code.length using Nat.strongRecOn generalizing code s with
  | ind n ih =>
      cases code with
      | nil =>
          rw [run]
          exact ended s
      | cons opcode bytes =>
          cases hdecode : Instruction.decode opcode bytes with
          | error f =>
              rw [run_of_fault frame hdecode]
              exact faulty opcode bytes s f hdecode
          | ok read =>
              obtain ⟨i, rest⟩ := read
              rw [run_of_decode frame hdecode]
              split
              · rename_i e s' hexecute
                exact failure opcode bytes s i rest e s' hdecode hexecute
              · rename_i v s' hexecute
                exact result opcode bytes s i rest v s' hdecode hexecute
              · rename_i s' hexecute
                have hrest : rest.length < n := by
                  have := Instruction.length_decode_le hdecode
                  rw [List.length_cons] at hlength
                  omega
                apply next opcode bytes s i rest s' _ hdecode hexecute
                exact ih _ hrest rest s' rfl

/-- A relation between worlds that every instruction respects holds between the two ends of
a run. -/
theorem run_respects [NativeFunction φ] (frame : Frame) {R : World φ → World φ → Prop}
    (hrefl : ∀ world, R world world)
    (htrans : ∀ {a b c}, R a b → R b c → R a c)
    (hchange : ∀ stack world i world', Changes frame.width stack world i world' → R world world')
    (code : List UInt8) (s : State φ) : R s.world (stateAfter (run frame code s)).world := by
  have hexecute : ∀ i (s : State φ), R s.world (stateAfter (execute frame i (tick s))).world := by
    intro i s
    rw [world_execute]
    exact hchange _ _ i _ (changes_effect frame.width frame.args _ _ i)
  refine run_induction frame (motive := fun _ s r => R s.world (stateAfter r).world)
    ?ended ?faulty ?result ?failure ?next code s
  case ended => exact fun s => hrefl s.world
  case faulty => exact fun _ _ s _ _ => hrefl s.world
  case result =>
    intro _ _ s i _ v s' _ h
    have := hexecute i s
    rwa [h] at this
  case failure =>
    intro _ _ s i _ e s' _ h
    have := hexecute i s
    rwa [h] at this
  case next =>
    intro _ _ s i _ s' _ _ h hrest
    have := hexecute i s
    rw [h] at this
    exact htrans this hrest

/-- The configurations of a run: the code still to be read, and the state in which its next
instruction is read. -/
inductive Comes [NativeFunction φ] (frame : Frame) (s : State φ) : List UInt8 → State φ → Prop
  | start : Comes frame s frame.code s
  | turn {opcode : UInt8} {bytes rest : List UInt8} {i : Instruction} {t t' : State φ}
      (before : Comes frame s (opcode :: bytes) t)
      (read : Instruction.decode opcode bytes = .ok (i, rest))
      (done : execute frame i (tick t) = .ok none t') : Comes frame s rest t'

/-- From each of its configurations on, a run goes on as the whole run does. -/
theorem Comes.run_eq [NativeFunction φ] {frame : Frame} {s t : State φ} {code : List UInt8}
    (hcomes : Comes frame s code t) : run frame code t = run frame frame.code s := by
  induction hcomes with
  | start => rfl
  | turn _ hread hdone ih => rw [← ih, run_of_decode frame hread, hdone]

/-- What a call leaves on the stack is no part of the world. -/
theorem world_executor [NativeFunction φ] (frame : Frame) (s : State φ) :
    (stateAfter (executor frame s)).world = (stateAfter (run frame frame.code s)).world := by
  rw [executor]
  cases run frame frame.code s <;> rfl

end StackMachine

end ScriptCore
