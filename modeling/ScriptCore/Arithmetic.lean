import ScriptCore.Error
import ScriptCore.Value.Text
import ScriptCore.Width

/-! # Arithmetic

Integer operations wrap at the working width. When one operand is a float the other is
promoted. A string on either side of `+` concatenates canonical texts. An assignment
acts on a variable, which keeps its value when the operation fails.
-/

namespace ScriptCore.Arithmetic

/-- The operation on 64-bit words; division is toward zero. -/
def wordOp (w : Width) (a b : Int64) : BinaryOperator → Except ScriptError Int64
  | .add => .ok (a + b)
  | .sub => .ok (a - b)
  | .mul => .ok (a * b)
  | .div => if b = 0 then .error .divisionByZero else .ok (a / b)
  | .rem => if b = 0 then .error .divisionByZero else .ok (a % b)
  | .and => .ok (a &&& b)
  | .or => .ok (a ||| b)
  | .xor => .ok (a ^^^ b)
  | .shl => .ok (Int64.ofBitVec (a.toBitVec <<< w.shiftDistance b))
  | .shr => .ok (Int64.ofBitVec (a.toBitVec.sshiftRight (w.shiftDistance b)))

def intOp (w : Width) (op : BinaryOperator) (a b : Int64) : Except ScriptError Int64 :=
  (wordOp w a b op).map w.wrap

/-- Floats have the arithmetic operators only. -/
def floatOp? (op : BinaryOperator) (x y : Float) : Option Float :=
  match op with
  | .add => some (x + y)
  | .sub => some (x - y)
  | .mul => some (x * y)
  | .div => some (x / y)
  | .rem => some (Exact.remainder x y)
  | _ => none

/-- Null, numbers and strings have a text that can be concatenated. -/
def joins : Tag → Bool
  | .null | .int | .float | .str => true
  | _ => false

def binary (w : Width) (op : BinaryOperator) (lhs rhs : Value) : Except ScriptError Value :=
  let mismatch := ScriptError.typeMismatch (.binary op) lhs.tag rhs.tag
  match lhs, rhs with
  | .int a, .int b => (intOp w op a b).map .int
  | _, _ =>
      match lhs.toFloat?, rhs.toFloat? with
      | some x, some y =>
          match floatOp? op x y with
          | some z => .ok (.float z)
          | none => .error mismatch
      | _, _ =>
          if op = .add ∧ (lhs.tag = .str ∨ rhs.tag = .str) ∧ joins lhs.tag ∧ joins rhs.tag then
            .ok (.str (lhs.text ++ rhs.text))
          else .error mismatch

/-- The tags of variables that an operator can be assigned to. -/
def assignable : Tag → Bool
  | .int | .float | .str => true
  | _ => false

/-- Applies the operator to the variable, stores the result in it and returns it. -/
def assign (w : Width) (op : BinaryOperator) (rhs : Value) :
    EStateM ScriptError Value Value := fun lhs =>
  match lhs with
  | .str s =>
      if op = .add ∧ joins rhs.tag then
        let joined := Value.str (s ++ rhs.text)
        .ok joined joined
      else
        match binary w op lhs rhs with
        | .ok v => .ok v v
        | .error e => .error e lhs
  | _ =>
      if assignable lhs.tag then
        match binary w op lhs rhs with
        | .ok v => .ok v v
        | .error e => .error e lhs
      else .error (.typeMismatch (.assign op) lhs.tag rhs.tag) lhs

def negate (w : Width) : Value → Except ScriptError Value
  | .int n => .ok (.int (w.wrap (-n)))
  | .float x => .ok (.float (-x))
  | other => .error (.wrongType .negate other.tag)

def complement (w : Width) : Value → Except ScriptError Value
  | .int n => .ok (.int (w.wrap (~~~n)))
  | other => .error (.wrongType .complement other.tag)

def logicalNot (v : Value) : Value :=
  .ofBool (!v.isTruthy)

/-- Adds `delta` to a numeric variable and returns its new value. -/
def advance (w : Width) (op : Operation) (delta : Int64) : EStateM ScriptError Value Value
  | .int n =>
      let next := Value.int (w.wrap (n + delta))
      .ok next next
  | .float x =>
      let next := Value.float (x + Float.ofInt delta.toInt)
      .ok next next
  | other => .error (.wrongType op other.tag) other

def increment (w : Width) : EStateM ScriptError Value Value :=
  advance w .increment 1

def decrement (w : Width) : EStateM ScriptError Value Value :=
  advance w .decrement (-1)

end ScriptCore.Arithmetic
