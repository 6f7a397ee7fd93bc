import ScriptCore.Proofs.Arithmetic.Assignment
import ScriptCore.Proofs.Host.Chain
import ScriptCore.Proofs.Machine.Turns

/-!
# Failures of running code

Code that runs can fail in many ways, but it never looks up a unit. So neither instructions
nor runs of the machine fail for a unit that is unknown or belongs elsewhere.
-/

namespace ScriptCore

/-- The failure of looking up a unit. -/
def ScriptError.OfUnit : ScriptError → Prop
  | .unknownUnit _ => True
  | .foreignUnit _ => True
  | _ => False

def Stop.OfUnit : Stop → Prop
  | .raised e => e.OfUnit
  | _ => False

/-- The result is no failure of looking up a unit. -/
def Unitless {α : Type} : Except Stop α → Prop
  | .ok _ => True
  | .error stop => ¬ stop.OfUnit

/-- The computation does not end with a failure of looking up a unit. -/
def EndsUnitless {σ α : Type} : EStateM.Result Stop σ α → Prop
  | .ok _ _ => True
  | .error stop _ => ¬ stop.OfUnit

theorem Unitless.map {α β : Type} {r : Except ScriptError α} (hr : Unitless (raising r))
    (f : α → β) : Unitless (raising (r.map f)) := by
  cases r with
  | ok a => trivial
  | error e => exact hr

theorem Unitless.of_error {α : Type} {r : Except Stop α} {stop : Stop} (hr : Unitless r)
    (hend : r = .error stop) : ¬ stop.OfUnit := by
  subst hend
  exact hr

theorem Unitless.of_raised {α : Type} {r : Except ScriptError α} {e : ScriptError}
    (hr : Unitless (raising r)) (hend : r = .error e) : ¬ e.OfUnit :=
  hr.of_error (congrArg raising hend)

theorem EndsUnitless.of_error {σ α : Type} {r : EStateM.Result Stop σ α} {stop : Stop} {s : σ}
    (hr : EndsUnitless r) (hend : r = .error stop s) : ¬ stop.OfUnit := by
  subst hend
  exact hr

/-! ## Operators -/

namespace Arithmetic

theorem unitless_intOp (w : Width) (op : BinaryOperator) (a b : Int64) :
    Unitless (raising (intOp w op a b)) := by
  refine Unitless.map ?_ _
  cases op with
  | div =>
      dsimp only [wordOp]
      split
      · exact id
      · trivial
  | rem =>
      dsimp only [wordOp]
      split
      · exact id
      · trivial
  | _ => trivial

theorem unitless_binary (w : Width) (op : BinaryOperator) (lhs rhs : Value) :
    Unitless (raising (binary w op lhs rhs)) := by
  unfold binary
  dsimp only
  split
  · exact (unitless_intOp w op _ _).map _
  · split
    · split
      · trivial
      · exact id
    · split
      · trivial
      · exact id

theorem not_ofUnit_of_assign {w : Width} {op : BinaryOperator} {rhs lhs v : Value}
    {e : ScriptError} (hend : assign w op rhs lhs = .error e v) : ¬ e.OfUnit := by
  have hresult : Unitless (raising (if assignable lhs.tag then binary w op lhs rhs
      else .error (.typeMismatch (.assign op) lhs.tag rhs.tag))) := by
    split
    · exact unitless_binary w op lhs rhs
    · exact id
  rw [assign_eq_storing] at hend
  generalize (if assignable lhs.tag then binary w op lhs rhs else _) = r at hresult hend
  cases r with
  | ok v => contradiction
  | error e' =>
      obtain ⟨rfl, -⟩ := EStateM.Result.error.inj hend
      exact hresult

end Arithmetic

theorem Comparison.unitless_equals (lhs rhs : Value) : Unitless (raising (equals lhs rhs)) := by
  unfold equals
  split
  · trivial
  · exact id

/-! ## Subscripts -/

theorem Key.unitless_ofValue (v : Value) : Unitless (raising (ofValue v)) := by
  cases v with
  | int n => trivial
  | str s => trivial
  | _ => exact id

namespace Host

variable {h : Host}

theorem unitless_readElement (r : BufferRef) (n : Int64) :
    Unitless (raising (h.readElement r n)) := by
  unfold readElement
  split
  · exact id
  · split
    · trivial
    · exact id

theorem unitless_readMember (r : RecordRef) (name : String) :
    Unitless (raising (h.readMember r name)) := by
  unfold readMember
  split
  · trivial
  · trivial
  · trivial
  · split
    · trivial
    · exact id

theorem unitless_writeElement (r : BufferRef) (n v : Int64) :
    Unitless (raising (h.writeElement r n v)) := by
  unfold writeElement
  split
  · exact id
  · split
    · split
      · trivial
      · exact id
    · exact id

theorem unitless_writeMember (r : RecordRef) (name : String) (v : Value) :
    Unitless (raising (h.writeMember r name v)) := by
  unfold writeMember
  split
  · split
    · trivial
    · exact id
  · trivial

theorem unitless_trail (fuel : Nat) (v : Value) : Unitless (h.trail fuel v) := by
  fun_induction h.trail fuel v with
  | case1 => exact id
  | case2 => exact id
  | case3 fuel r inner held ih =>
      cases hrest : h.trail fuel inner with
      | ok reached => trivial
      | error stop => exact ih.of_error hrest
  | case4 => trivial

theorem unitless_resolve (v : Value) : Unitless (h.resolve v) := by
  rw [resolve, follow]
  cases htrail : h.trail (h.slots.length + 1) v with
  | ok reached => trivial
  | error stop => exact (unitless_trail _ v).of_error htrail

end Host

namespace Access

theorem unitless_readIndexAt (h : Host) (target key : Value) :
    Unitless (raising (readIndexAt h target key)) := by
  unfold readIndexAt
  split
  · split
    · trivial
    · exact id
  · exact (Key.unitless_ofValue _).map _
  · split
    · trivial
    · exact id
  · exact Host.unitless_readElement _ _
  · exact Host.unitless_readMember _ _
  · exact id
  · exact id

theorem unitless_readIndex (h : Host) (target key : Value) : Unitless (readIndex h target key) := by
  unfold readIndex
  split
  · exact unitless_readIndexAt h _ key
  · rename_i hend
    exact (h.unitless_resolve target).of_error hend

theorem unitless_writeIndexAt (p : Place) (key value : Value) :
    Unitless (raising (writeIndexAt p key value)) := by
  unfold writeIndexAt
  split
  · split
    · split
      · trivial
      · split
        · trivial
        · exact id
    · exact id
  · exact id
  · exact (Key.unitless_ofValue _).map _
  · split
    · exact (Host.unitless_writeElement _ _ _).map _
    · exact id
  · exact (Host.unitless_writeMember _ _ _).map _
  · exact id
  · exact id

theorem endsUnitless_writeIndex (key value : Value) (p : Place) :
    EndsUnitless (writeIndex key value p) := by
  unfold writeIndex write
  split
  · split
    · rename_i hend
      exact (Host.unitless_trail _ p.target).of_error hend
    · split
      · rename_i hend
        exact (unitless_writeIndexAt _ key value).of_raised hend
      · trivial
  · dsimp only
    split
    · rename_i hend
      exact (unitless_writeIndexAt _ key value).of_raised hend
    · trivial

end Access

/-! ## Runs -/

theorem Stock.unitless_sumFrom (w : Width) (total : Int64) (args : List Value) :
    Unitless (raising (sumFrom w total args)) := by
  fun_induction sumFrom w total args with
  | case1 => trivial
  | case2 total n rest ih => exact ih
  | case3 => exact id

theorem Stock.not_ofUnit_of_call {width : Width} {args : List Value} {s s' : NativeScope Stock}
    {e : ScriptError} (hend : call width args s = .error e s') : ¬ e.OfUnit := by
  unfold call at hend
  split at hend
  case h_1 =>
    split at hend
    · contradiction
    · rename_i hsum
      obtain ⟨rfl, -⟩ := EStateM.Result.error.inj hend
      exact (unitless_sumFrom width 0 args).of_raised hsum
  case h_8 =>
    split at hend
    · obtain ⟨rfl, -⟩ := EStateM.Result.error.inj hend
      exact id
    · contradiction
  case h_9 =>
    obtain ⟨rfl, -⟩ := EStateM.Result.error.inj hend
    exact id
  all_goals contradiction

theorem World.not_ofUnit_of_callNative {width : Width} {name : String} {args : List Value}
    {world world' : World Stock} {e : ScriptError}
    (hend : world.callNative width name args = .error e world') : ¬ e.OfUnit := by
  unfold callNative at hend
  split at hend
  · obtain ⟨rfl, -⟩ := EStateM.Result.error.inj hend
    exact id
  · split at hend
    · contradiction
    · rename_i hcall
      obtain ⟨rfl, -⟩ := EStateM.Result.error.inj hend
      exact Stock.not_ofUnit_of_call hcall

namespace StackMachine

/-- Whatever an instruction fails for, it is not a unit. -/
theorem FailsFor.not_ofUnit {width : Width} {stack : List Value} {world : World Stock}
    {i : Instruction} {stop : Stop} (h : FailsFor width stack world i stop) : ¬ stop.OfUnit := by
  cases h with
  | underflow => exact id
  | noSlot => exact id
  | assign error => exact Arithmetic.not_ofUnit_of_assign error
  | binary error => exact (Arithmetic.unitless_binary _ _ _ _).of_raised error
  | equal error => exact (Comparison.unitless_equals _ _).of_raised error
  | native error => exact World.not_ofUnit_of_callNative error
  | read operands error => exact (Access.unitless_readIndex _ _ _).of_error error
  | write operands error => exact (Access.endsUnitless_writeIndex _ _ _).of_error error

/-- A run of the machine does not fail for a unit. -/
theorem endsUnitless_executor (frame : Frame) (s : State Stock) :
    EndsUnitless (executor frame s) := by
  have hrun : EndsUnitless (run frame frame.code s) := by
    refine run_induction frame (motive := fun _ _ r => EndsUnitless r)
      ?ended ?faulty ?result ?failure ?next frame.code s
    case ended => exact fun _ => id
    case faulty => exact fun _ _ _ _ _ => id
    case result => exact fun _ _ _ _ _ _ _ _ _ => trivial
    case failure => exact fun _ _ _ _ _ _ _ _ hend => (failsFor_of_execute hend).not_ofUnit
    case next => exact fun _ _ _ _ _ _ _ _ _ hrest => hrest
  unfold executor
  dsimp only
  split
  · trivial
  · rename_i hend
    exact hrun.of_error hend

end StackMachine

end ScriptCore
