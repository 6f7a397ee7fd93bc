import ScriptCore.Dictionary
import ScriptCore.Exact
import ScriptCore.UnitHash

/-! # Script values

A value is dynamically typed: its tag says which operations apply to it. Arrays and
tables are plain contents, copied by assignment. Handles name storage that the host
owns, and unit references name a unit of one loaded context.
-/

namespace ScriptCore

inductive Tag where
  | null
  | int
  | float
  | str
  | array
  | hash
  | native
  | unit
deriving DecidableEq

namespace Tag

def name : Tag → String
  | .null => "null"
  | .int => "int"
  | .float => "float"
  | .str => "string"
  | .array => "array"
  | .hash => "hash"
  | .native => "native"
  | .unit => "unit"

def isNumeric : Tag → Bool
  | .int | .float => true
  | _ => false

end Tag

/-- A table key. Integer keys come before string keys. -/
inductive Key where
  | int (n : Int64)
  | str (s : String)
deriving DecidableEq

namespace Key

def order : Key → Key → Ordering
  | .int m, .int n => compare m n
  | .int _, .str _ => .lt
  | .str _, .int _ => .gt
  | .str s, .str t => compare s t

instance : Ord Key := ⟨order⟩

@[simp] theorem compare_int (m n : Int64) : compare (int m) (int n) = compare m n :=
  rfl

@[simp] theorem compare_str (s t : String) : compare (str s) (str t) = compare s t :=
  rfl

instance : Std.LawfulEqOrd Key where
  compare_self := by
    intro k
    cases k <;> simp
  eq_of_compare := by
    intro k l h
    cases k with
    | int m =>
        cases l with
        | int n => simpa using h
        | str t => contradiction
    | str s =>
        cases l with
        | int n => contradiction
        | str t => simpa using h

instance : Std.TransOrd Key where
  eq_swap := by
    intro k l
    cases k with
    | int m =>
        cases l with
        | int n => simpa using Std.OrientedOrd.eq_swap
        | str t => rfl
    | str s =>
        cases l with
        | int n => rfl
        | str t => simpa using Std.OrientedOrd.eq_swap
  isLE_trans := by
    intro k l m hkl hlm
    cases k with
    | int i =>
        cases m with
        | str u => rfl
        | int n =>
            cases l with
            | int j =>
                rw [compare_int] at hkl hlm ⊢
                exact Std.TransOrd.isLE_trans hkl hlm
            | str t => contradiction
    | str s =>
        cases l with
        | int j => contradiction
        | str t =>
            cases m with
            | int n => contradiction
            | str u =>
                rw [compare_str] at hkl hlm ⊢
                exact Std.TransOrd.isLE_trans hkl hlm

end Key

/-- The integer types that a host buffer can hold. -/
inductive Element where
  | i8
  | u8
  | i16
  | u16
  | i32
  | u32
  | i64
deriving DecidableEq

namespace Element

def name : Element → String
  | .i8 => "i8"
  | .u8 => "u8"
  | .i16 => "i16"
  | .u16 => "u16"
  | .i32 => "i32"
  | .u32 => "u32"
  | .i64 => "i64"

def bits : Element → Nat
  | .i8 | .u8 => 8
  | .i16 | .u16 => 16
  | .i32 | .u32 => 32
  | .i64 => 64

def signed : Element → Bool
  | .i8 | .i16 | .i32 | .i64 => true
  | .u8 | .u16 | .u32 => false

/-- The stored pattern of `n`: its low bits. -/
def narrow (e : Element) (n : Int64) : BitVec e.bits :=
  n.toBitVec.setWidth e.bits

/-- The integer that a stored pattern stands for. -/
def widen (e : Element) (b : BitVec e.bits) : Int64 :=
  Int64.ofBitVec (if e.signed then b.signExtend 64 else b.setWidth 64)

end Element

/-- Names a host buffer, with the type of its elements. -/
structure BufferRef where
  elem : Element
  index : Nat
deriving DecidableEq

/-- Names a host value. -/
structure SlotRef where
  index : Nat
deriving DecidableEq

/-- Names a record. -/
structure RecordRef where
  index : Nat
deriving DecidableEq

/-- A reference to host storage. Two handles are equal when they name the same storage. -/
inductive Handle where
  | slice (buffer : BufferRef)
  | slot (slot : SlotRef)
  | record (record : RecordRef)
deriving DecidableEq

def Handle.kind : Handle → String
  | .slice b => b.elem.name
  | .slot _ => "value"
  | .record _ => "record"

/-- Tells loaded contexts apart. -/
structure ContextId where
  val : UInt32
deriving DecidableEq

/-- A unit of one context. -/
structure UnitRef where
  hash : UnitHash
  context : ContextId
deriving DecidableEq

inductive Value where
  | null
  | int (n : Int64)
  | float (x : Float)
  | str (s : String)
  | array (items : List Value)
  | hash (table : Dictionary Key Value)
  | native (handle : Handle)
  | unit (ref : UnitRef)

abbrev Table := Dictionary Key Value

namespace Value

instance : Inhabited Value := ⟨.null⟩

def tag : Value → Tag
  | .null => .null
  | .int _ => .int
  | .float _ => .float
  | .str _ => .str
  | .array _ => .array
  | .hash _ => .hash
  | .native _ => .native
  | .unit _ => .unit

/-- The integer `1` for true and `0` for false. -/
def ofBool (b : Bool) : Value :=
  .int (if b then 1 else 0)

/-- Null, zero of either number type and the empty string are false; all else is true. -/
def isTruthy : Value → Bool
  | .null => false
  | .int n => n != 0
  | .float x => x != Float.ofBits 0
  | .str s => !s.isEmpty
  | .array _ | .hash _ | .native _ | .unit _ => true

/-- The number as a float, rounded to the nearest one. -/
def toFloat? : Value → Option Float
  | .int n => some (Float.ofInt n.toInt)
  | .float x => some x
  | _ => none

mutual

/-- Structural sameness: floats by what they denote, handles by the storage they name,
and no conversion between tags. -/
def same : Value → Value → Bool
  | .null, .null => true
  | .int m, .int n => m == n
  | .float x, .float y => x == y
  | .str s, .str t => s == t
  | .array vs, .array ws => sameItems vs ws
  | .hash ⟨vs⟩, .hash ⟨ws⟩ => sameEntries vs ws
  | .native g, .native h => g == h
  | .unit r, .unit s => r == s
  | _, _ => false

def sameItems : List Value → List Value → Bool
  | [], [] => true
  | v :: vs, w :: ws => same v w && sameItems vs ws
  | _, _ => false

def sameEntries {low high : Option Key} :
    Ascending Key Value low → Ascending Key Value high → Bool
  | .nil, .nil => true
  | .cons k v _ vs, .cons l w _ ws => k == l && same v w && sameEntries vs ws
  | _, _ => false

end

end Value

/-- The value of a key. -/
def Key.toValue : Key → Value
  | .int n => .int n
  | .str s => .str s

end ScriptCore
