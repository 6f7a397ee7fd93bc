import ScriptCore.Decimal.Reading
import ScriptCore.Error
import ScriptCore.Width

/-! # Numeric literals

An integer literal is an optional minus sign and digits in base sixteen (after `0x`),
two (after `0b`) or ten. Its magnitude fits in 64 bits, and its value wraps at the
working width. Any other text with a point or an exponent mark is a decimal float.
-/

namespace ScriptCore.Literal

/-- Splits off one leading minus sign. -/
def splitMinus : List Char → Bool × List Char
  | '-' :: rest => (true, rest)
  | cs => (false, cs)

/-- The base named at the start of a magnitude, and the digits after it. -/
def splitBase : List Char → Nat × List Char
  | '0' :: 'x' :: rest => (16, rest)
  | '0' :: 'X' :: rest => (16, rest)
  | '0' :: 'b' :: rest => (2, rest)
  | '0' :: 'B' :: rest => (2, rest)
  | cs => (10, cs)

def int (w : Width) (text : String) : Except ScriptError Int64 :=
  let (negative, body) := splitMinus text.toList
  let (base, digits) := splitBase body
  -- The digits may not start with a sign of their own.
  if digits.isEmpty || !digits.all Numeral.isHexDigit then .error .invalidLiteral
  else
    match Numeral.readWide? base digits with
    | none => .error .invalidLiteral
    | some magnitude =>
        if UInt64.size ≤ magnitude.toNat then .error .invalidLiteral
        else .ok (w.wrapBits (if negative then -magnitude else magnitude))

/-- Whether the text is to be read as a decimal float. -/
def isFloat (cs : List Char) : Bool :=
  (splitBase (splitMinus cs).2).1 != 16 && cs.any fun c => c == '.' || c == 'e' || c == 'E'

def number (w : Width) (text : String) : Except ScriptError Value :=
  if isFloat text.toList then
    match Decimal.read? text.toList with
    | some x => .ok (.float x)
    | none => .error .invalidLiteral
  else (int w text).map .int

end ScriptCore.Literal
