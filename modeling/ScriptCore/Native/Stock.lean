import ScriptCore.Arithmetic
import ScriptCore.Native

/-! # Stock host functions

Small functions for trying out scripts: sums, argument access, constants, a call
counter, exchange with a global and deliberate failure.
-/

namespace ScriptCore

inductive Stock where
  /-- The sum of its arguments, which have to be integers. -/
  | sum
  /-- The number of its arguments. -/
  | argc
  /-- Its second argument, or null. -/
  | second
  /-- An array of its arguments. -/
  | pack
  /-- Always the same value. -/
  | constant (v : Value)
  /-- How often it has been called. -/
  | counter (calls : Nat)
  /-- Null. -/
  | quiet
  /-- The first global, which its first argument replaces. -/
  | swapGlobal
  /-- Fails with a fixed report. -/
  | fail (report : String)

namespace Stock

/-- Adds integers to a running total at the working width. -/
def sumFrom (w : Width) (total : Int64) : List Value → Except ScriptError Value
  | [] => .ok (.int total)
  | .int n :: rest => sumFrom w (w.wrap (total + n)) rest
  | _ :: _ => .error (.native "sum takes integers")

def call (w : Width) (args : List Value) : EStateM ScriptError (NativeScope Stock) Value := fun s =>
  match s.self with
  | .sum =>
      match sumFrom w 0 args with
      | .ok v => .ok v s
      | .error e => .error e s
  | .argc => .ok (.int (Int64.ofNat args.length)) s
  | .second => .ok (args[1]?.getD .null) s
  | .pack => .ok (.array args) s
  | .constant v => .ok v s
  | .counter calls => .ok (.int (Int64.ofNat (calls + 1))) { s with self := .counter (calls + 1) }
  | .quiet => .ok .null s
  | .swapGlobal =>
      match s.globals with
      | [] => .error (.native "no globals") s
      | v :: rest => .ok v { s with globals := args.headD .null :: rest }
  | .fail report => .error (.native report) s

instance : NativeFunction Stock := ⟨call⟩

end Stock

end ScriptCore
