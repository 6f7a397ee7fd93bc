import ScriptCore.Text.Hex

/-! # Unit hashes

A unit is known by a 64-bit hash of its name. The hash runs over the name's UTF-8
bytes: each byte is mixed in by exclusive or, and the sum is multiplied by a fixed
odd number, modulo `2 ^ 64`.
-/

namespace ScriptCore

structure UnitHash where
  val : UInt64
deriving DecidableEq

namespace UnitHash

/-- The hash of the empty byte string. -/
def seed : UInt64 := 0xcbf29ce484222325

def multiplier : UInt64 := 0x100000001b3

def absorb (h : UInt64) (b : UInt8) : UInt64 :=
  (h ^^^ b.toUInt64) * multiplier

def ofBytes (bytes : List UInt8) : UnitHash :=
  ⟨bytes.foldl absorb seed⟩

def ofName (name : String) : UnitHash :=
  ofBytes name.toUTF8.toList

/-- Sixteen hexadecimal digits. -/
def text (h : UnitHash) : String :=
  Hex.padded 16 h.val.toNat

end UnitHash

end ScriptCore
