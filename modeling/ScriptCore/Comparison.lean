import ScriptCore.Error

/-! # Comparison

Two numbers of one type compare as that type does. An integer and a float compare by the
integer part of the float, then by what is left of it, so that the integer is never rounded.
Strings compare byte by byte. Equality is defined on scalars and unit references, and refuses
containers and handles.
-/

namespace ScriptCore.Comparison

/-- Containers and handles have no equality of their own. -/
def comparable : Tag → Bool
  | .array | .hash | .native => false
  | _ => true

/-- The order of two floats, from the one comparison made both ways. -/
def floatOrder (x y : Float) : Option Ordering :=
  match decide (x ≤ y), decide (y ≤ x) with
  | false, false => none
  | false, true => some .gt
  | true, false => some .lt
  | true, true => some .eq

/-- `2 ^ 63`. A float below it, and from `-2 ^ 63` on, has an integer part that is a word. -/
def wordBound : Float :=
  Float.ofBits 0x43e0000000000000

/-- The order of an integer and a float; `none` when the float is not a number. The integer
is not rounded to a float. -/
def intFloatOrder (i : Int64) (f : Float) : Option Ordering :=
  if f.isNaN then none
  else if wordBound ≤ f then some .lt
  else if f < -wordBound then some .gt
  else
    let whole := Exact.truncate f
    some <| (compare i (Exact.toInt64 whole)).then <|
      -- The integer parts are the same: the fractional part decides.
      if whole < f then .lt
      else if f < whole then .gt
      else .eq

/-- Equality of two scalars or unit references. -/
def scalarEqual : Value → Value → Bool
  | .null, .null => true
  | .int a, .int b => a == b
  | .float x, .float y => x == y
  | .int i, .float f | .float f, .int i => intFloatOrder i f == some .eq
  | .str s, .str t => s == t
  | .unit r, .unit s => r == s
  | _, _ => false

def equals (lhs rhs : Value) : Except ScriptError Bool :=
  if comparable lhs.tag && comparable rhs.tag then .ok (scalarEqual lhs rhs)
  else .error (.typeMismatch .equal lhs.tag rhs.tag)

def notEquals (lhs rhs : Value) : Except ScriptError Bool :=
  (equals lhs rhs).map (!·)

/-- The order of two numbers or two strings; `none` when one number is not a number. -/
def order (lhs rhs : Value) : Except ScriptError (Option Ordering) :=
  match lhs, rhs with
  | .int a, .int b => .ok (some (compare a b))
  | .float x, .float y => .ok (floatOrder x y)
  | .int i, .float f => .ok (intFloatOrder i f)
  | .float f, .int i => .ok ((intFloatOrder i f).map Ordering.swap)
  | .str s, .str t => .ok (some (compare s.toUTF8.toList t.toUTF8.toList))
  | _, _ => .error (.typeMismatch .less lhs.tag rhs.tag)

end ScriptCore.Comparison
