/-! # Integer working widths

Script integers are 64-bit words. A computation runs at a working width of 32 or
64 bits, and every integer result is reduced to the signed range of that width.
-/

namespace ScriptCore

/-- The width, in bits, at which integer arithmetic wraps around. -/
inductive Width where
  | w32
  | w64
deriving DecidableEq

namespace Width

def bits : Width → Nat
  | .w32 => 32
  | .w64 => 64

/-- The signed reading of the low `w.bits` bits of `n`. -/
def wrap : Width → Int64 → Int64
  | .w32, n => n.toInt32.toInt64
  | .w64, n => n

/-- The signed reading of the low `w.bits` bits of a 128-bit number. -/
def wrapBits : Width → BitVec 128 → Int64
  | .w32, bits => (Int32.ofBitVec (bits.setWidth 32)).toInt64
  | .w64, bits => Int64.ofBitVec (bits.setWidth 64)

/-- How far a shift by `n` moves: `n` modulo the width, also when `n` is negative. -/
def shiftDistance (w : Width) (n : Int64) : Nat :=
  n.toBitVec.toNat % w.bits

@[simp] theorem wrap_w64 (n : Int64) : Width.w64.wrap n = n := rfl

end Width

end ScriptCore
