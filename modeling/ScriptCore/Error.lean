import ScriptCore.Operator
import ScriptCore.Text.Numeral
import ScriptCore.Value

/-! # Errors

Why an image cannot be loaded, and why a script operation fails. Each cause has one
message. A computation may also come to no result at all, and then there is no error
either.
-/

namespace ScriptCore

inductive LoadError where
  | badMagic
  | unsupportedVersion (version : UInt8)
  | unexpectedEnd
  | invalidVarint
  | reservedFlags (flags : UInt8)
  | offsetOutOfBounds (unit offset : Nat)
  | duplicateUnit (hash : UnitHash)
  | tooManyUnits
  | tooManyGlobals
  | trailingBytes
deriving DecidableEq

def LoadError.message : LoadError → String
  | .badMagic => "bad magic"
  | .unsupportedVersion version => "unsupported image version " ++ Numeral.ofNat version.toNat
  | .unexpectedEnd => "unexpected end of image"
  | .invalidVarint => "invalid varint"
  | .reservedFlags flags => "reserved flags set: 0x" ++ Hex.padded 2 flags.toNat
  | .offsetOutOfBounds unit offset =>
      "unit " ++ Numeral.ofNat unit ++ " code offset " ++ Numeral.ofNat offset ++ " out of bounds"
  | .duplicateUnit hash => "duplicate unit " ++ hash.text
  | .tooManyUnits => "too many units"
  | .tooManyGlobals => "too many globals"
  | .trailingBytes => "trailing bytes after code section"

inductive ScriptError where
  /-- An operation on two operands whose tags it does not accept. -/
  | typeMismatch (op : Operation) (lhs rhs : Tag)
  /-- An operation on one operand whose tag it does not accept. -/
  | wrongType (op : Operation) (operand : Tag)
  | invalidKey (tag : Tag)
  | emptyContainer
  | indexOutOfRange (index : Int) (length : Nat)
  | loadFailed (cause : LoadError)
  | divisionByZero
  | invalidLiteral
  /-- The host has given up the storage that a handle names. -/
  | dangling
  | unknownUnit (hash : UnitHash)
  | unknownNative (name : String)
  | foreignUnit (hash : UnitHash)
  /-- A failure reported by a host function or by an executor. -/
  | native (report : String)
deriving DecidableEq

namespace ScriptError

def message : ScriptError → String
  | .typeMismatch op lhs rhs =>
      "type mismatch: " ++ lhs.name ++ " " ++ op.name ++ " " ++ rhs.name
  | .wrongType op operand => "type mismatch: " ++ op.name ++ " on " ++ operand.name
  | .invalidKey tag => "invalid hash key of type " ++ tag.name
  | .emptyContainer => "container is empty"
  | .indexOutOfRange index length =>
      "index " ++ Numeral.ofInt index ++ " out of range for length " ++ Numeral.ofNat length
  | .loadFailed cause => "context creation failed: " ++ cause.message
  | .divisionByZero => "integer division by zero"
  | .invalidLiteral => "invalid numeric literal"
  | .dangling => "native data no longer alive"
  | .unknownUnit hash => "unknown unit " ++ hash.text
  | .unknownNative name => "unknown native function `" ++ name ++ "`"
  | .foreignUnit hash => "unit " ++ hash.text ++ " belongs to another context"
  | .native report => "native error: " ++ report

/-- A position outside a sequence of `length` items. Positions past the largest script
integer are reported as that integer. -/
def positionOutOfRange (position length : Nat) : ScriptError :=
  .indexOutOfRange (min position Int64.maxValue.toInt.toNat : Nat) length

end ScriptError

/-- How a computation stops short of a value. -/
inductive Stop where
  /-- It fails with an error. -/
  | raised (e : ScriptError)
  /-- It never ends, and so has no result. -/
  | endless
  /-- It needs more storage at once than there is, and ends without a result. -/
  | exhausted
deriving DecidableEq

instance : Coe ScriptError Stop := ⟨.raised⟩

/-- What can only fail, where there may be no result. -/
def raising {α : Type} : Except ScriptError α → Except Stop α
  | .ok a => .ok a
  | .error e => .error e

@[simp] theorem raising_eq_ok_iff {α : Type} {r : Except ScriptError α} {a : α} :
    raising r = .ok a ↔ r = .ok a := by
  cases r <;> simp [raising]

theorem raising_eq_error_iff {α : Type} {r : Except ScriptError α} {stop : Stop} :
    raising r = .error stop ↔ ∃ e, r = .error e ∧ stop = .raised e := by
  cases r <;> simp [raising, eq_comm]

/-- Whether there is a result, be it an error. -/
def hasResult {α : Type} : Except Stop α → Bool
  | .ok _ | .error (.raised _) => true
  | .error .endless | .error .exhausted => false

@[simp] theorem hasResult_raising {α : Type} (r : Except ScriptError α) :
    hasResult (raising r) = true := by
  cases r <;> rfl

/-- The table key that a value stands for; only integers and strings are keys. -/
def Key.ofValue : Value → Except ScriptError Key
  | .int n => .ok (.int n)
  | .str s => .ok (.str s)
  | other => .error (.invalidKey other.tag)

end ScriptCore
