import ScriptCore.Error

/-! # Operands of commands

A term stands for a value: a constant, a copy of a variable, or an array or table built
from terms. Table entries are put in one after another, so a later key replaces an equal
earlier one.
-/

namespace ScriptCore

inductive Term where
  | value (v : Value)
  /-- A variable; one that was never set is null. -/
  | var (name : String)
  | array (items : List Term)
  | table (entries : List (Term × Term))

namespace Term

abbrev Variables := Dictionary String Value

mutual

def eval (vars : Variables) : Term → Except ScriptError Value
  | .value v => .ok v
  | .var name => .ok ((vars.get? name).getD .null)
  | .array items => (evalAll vars items).map .array
  | .table entries => (evalEntries vars .empty entries).map .hash

def evalAll (vars : Variables) : List Term → Except ScriptError (List Value)
  | [] => .ok []
  | t :: rest => do
      let v ← eval vars t
      let vs ← evalAll vars rest
      return v :: vs

def evalEntries (vars : Variables) (table : Table) :
    List (Term × Term) → Except ScriptError Table
  | [] => .ok table
  | (k, t) :: rest => do
      let key ← Key.ofValue (← eval vars k)
      let v ← eval vars t
      evalEntries vars (table.insert key v) rest

end

end Term

end ScriptCore
