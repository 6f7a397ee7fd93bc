import ScriptCore.Session.Basic

/-! # Commands on variables and operators -/

namespace ScriptCore

inductive ScalarCommand where
  | set (var : String) (t : Term)
  | copy (t : Term)
  | text (t : Term)
  | truthy (t : Term)
  | binary (op : BinaryOperator) (lhs rhs : Term)
  | assign (op : BinaryOperator) (var : String) (rhs : Term)
  | increment (var : String)
  | decrement (var : String)
  | negate (t : Term)
  | complement (t : Term)
  | logicalNot (t : Term)
  | equals (lhs rhs : Term)
  | notEquals (lhs rhs : Term)
  | order (lhs rhs : Term)
  | same (lhs rhs : Term)

namespace ScalarCommand

open Session

def perform : ScalarCommand → Act Reply
  | .set var t => do
      store var (← eval t)
      return .done
  | .copy t => return .value (← eval t)
  | .text t => return .text (← eval t).text
  | .truthy t => return .flag (← eval t).isTruthy
  | .binary op lhs rhs => do
      let lhs ← eval lhs
      let rhs ← eval rhs
      return .value (← attempt (Arithmetic.binary (← get).width op lhs rhs))
  | .assign op var rhs => do
      let rhs ← eval rhs
      let w := (← get).width
      return .value (← onVariable var (Arithmetic.assign w op rhs))
  | .increment var => do
      let w := (← get).width
      return .value (← onVariable var (Arithmetic.increment w))
  | .decrement var => do
      let w := (← get).width
      return .value (← onVariable var (Arithmetic.decrement w))
  | .negate t => do
      let v ← eval t
      return .value (← attempt (Arithmetic.negate (← get).width v))
  | .complement t => do
      let v ← eval t
      return .value (← attempt (Arithmetic.complement (← get).width v))
  | .logicalNot t => return .value (Arithmetic.logicalNot (← eval t))
  | .equals lhs rhs => do
      let lhs ← eval lhs
      let rhs ← eval rhs
      return .flag (← attempt (Comparison.equals lhs rhs))
  | .notEquals lhs rhs => do
      let lhs ← eval lhs
      let rhs ← eval rhs
      return .flag (← attempt (Comparison.notEquals lhs rhs))
  | .order lhs rhs => do
      let lhs ← eval lhs
      let rhs ← eval rhs
      return .order (← attempt (Comparison.order lhs rhs))
  | .same lhs rhs => do
      let lhs ← eval lhs
      let rhs ← eval rhs
      return .flag (lhs.same rhs)

end ScalarCommand

end ScriptCore
