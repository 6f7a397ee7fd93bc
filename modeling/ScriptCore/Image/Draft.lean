import ScriptCore.Image

/-! # Writing images

A draft lists units with their code. In the finished image the code of all units stands
in one section, and each table entry holds the position where its unit's code starts.
Positions are varints, so the length of the table depends on where the code starts, and
that on the length of the table; the layout is the least start that agrees with itself.
-/

namespace ScriptCore

structure DraftUnit where
  hash : UnitHash
  params : UInt8
  code : List UInt8

structure Draft where
  globals : Nat
  units : List DraftUnit

namespace Draft

/-- The code section. -/
def code (d : Draft) : List UInt8 :=
  d.units.flatMap DraftUnit.code

/-- Where each unit's code starts within the code section. -/
def starts (d : Draft) : List Nat :=
  go 0 d.units
where
  go (start : Nat) : List DraftUnit → List Nat
    | [] => []
    | u :: rest => start :: go (start + u.code.length) rest

/-- Everything before the unit table. -/
def header (d : Draft) : List UInt8 :=
  Image.signature ++ [Image.version, 0] ++ Varint.encode d.globals
    ++ Varint.encode d.units.length

/-- The length of the image up to its code, the unit table left out. -/
def fixedLength (d : Draft) : Nat :=
  d.header.length + Varint.size d.code.length

/-- The position of the code section when the table's positions are written for a code
section at `base`. -/
def layoutFrom (d : Draft) (base : Nat) : Nat :=
  d.starts.foldl (fun length start => length + (9 + Varint.size (base + start))) d.fixedLength

/-- Repeats the layout until it agrees with itself, for at most `fuel` rounds. -/
def settle (d : Draft) : Nat → Nat → Nat
  | 0, base => base
  | fuel + 1, base =>
      let next := d.layoutFrom base
      if next = base then base else d.settle fuel next

/-- The position of the code section. Starting from the smallest table, every round but
the last lengthens some position by a byte, and a position takes at most ten. -/
def base (d : Draft) : Nat :=
  d.settle (9 * d.units.length + 1) (d.fixedLength + 10 * d.units.length)

def entryBytes (base : Nat) (u : DraftUnit) (start : Nat) : List UInt8 :=
  Cursor.toLittleEndian 8 u.hash.val.toNat ++ Varint.encode (base + start) ++ [u.params]

/-- The finished image. -/
def image (d : Draft) : List UInt8 :=
  d.header
    ++ (List.zipWith (entryBytes d.base) d.units d.starts).flatten
    ++ Varint.encode d.code.length ++ d.code

end Draft

end ScriptCore
