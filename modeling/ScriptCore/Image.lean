import ScriptCore.Cursor

/-! # Images

An image is a byte string: a signature, a version, a byte of flags, the number of global
slots, the unit table and the code. A table entry holds the unit's hash, the position of
its code in the image and its parameter count. Reading checks every field against the
format and the limits of the reader, and nothing may follow the code. Storage for the
table is asked for as soon as its length is known, whether or not the entries follow.
-/

namespace ScriptCore

/-- What a reader is willing to load. -/
structure Limits where
  units : Nat := 65536
  globals : Nat := 65536
  args : Nat := 255
deriving DecidableEq

/-- The storage that can be had at once, in bytes; no more than this can be addressed. -/
structure Memory where
  block : Nat
  addressable : block ≤ Int64.maxValue.toInt.toNat

namespace Memory

def full : Memory := ⟨Int64.maxValue.toInt.toNat, Nat.le_refl _⟩

/-- Whether there is room for `count` items of `size` bytes each. -/
def holds (m : Memory) (count size : Nat) : Bool :=
  count * size ≤ m.block

end Memory

/-- A unit as the table describes it. -/
structure UnitEntry where
  hash : UnitHash
  offset : Nat
  params : UInt8
deriving DecidableEq

/-- What reading finds in an image; the code lies between the two positions. -/
structure Image where
  globals : Nat
  units : List UnitEntry
  codeStart : Nat
  codeEnd : Nat
deriving DecidableEq

namespace Image

/-- The bytes `STRD`. -/
def signature : List UInt8 := [0x53, 0x54, 0x52, 0x44]

def version : UInt8 := 1

def readSignature : Read Unit := fun c =>
  match Cursor.take signature.length c with
  | .ok bytes c' => if bytes = signature then .ok () c' else .error .badMagic c'
  | .error _ c' => .error .badMagic c'

/-- Reads up to the number of globals. -/
def readHeader : Read Nat := do
  readSignature
  let v ← Cursor.byte
  if v ≠ version then throw (.unsupportedVersion v)
  let flags ← Cursor.byte
  if flags ≠ 0 then throw (.reservedFlags flags)
  Cursor.varint

def readEntry : Read UnitEntry := do
  let hash ← Cursor.word
  let offset ← Cursor.varint
  let params ← Cursor.byte
  return ⟨⟨hash⟩, offset, params⟩

/-- Reads `count` table entries; none may repeat a hash of `seen` or of an earlier entry. -/
def readTable : Nat → List UnitHash → Read (List UnitEntry)
  | 0, _ => return []
  | count + 1, seen => do
      let entry ← readEntry
      if entry.hash ∈ seen then throw (.duplicateUnit entry.hash)
      let rest ← readTable count (entry.hash :: seen)
      return entry :: rest

/-- Whether a position is inside the code or at its end, and fits in 32 bits. -/
def inCode (start stop offset : Nat) : Bool :=
  start ≤ offset && offset ≤ stop && offset < UInt32.size

/-- Reads up to the length of the unit table: the numbers of globals and of units. -/
def readCounts (limits : Limits) : Read (Nat × Nat) := do
  let globals ← readHeader
  if limits.globals < globals then throw .tooManyGlobals
  let count ← Cursor.varint
  if limits.units < count then throw .tooManyUnits
  return (globals, count)

/-- Reads an image up to the end of its code. -/
def readBody (limits : Limits) : Read Image := do
  let (globals, count) ← readCounts limits
  let units ← readTable count []
  let length ← Cursor.varint
  let start := (← get).pos
  let _ ← Cursor.take length
  return ⟨globals, units, start, start + length⟩

/-- The first table entry whose code is outside the code section. -/
def strayUnit? (image : Image) : Option (UnitEntry × Nat) :=
  image.units.zipIdx.find? fun (entry, _) =>
    !inCode image.codeStart image.codeEnd entry.offset

def read (limits : Limits) (bytes : List UInt8) : Except LoadError Image :=
  match readBody limits (.ofBytes bytes) with
  | .error e _ => .error e
  | .ok image c =>
      if !c.atEnd then .error .trailingBytes
      else
        match image.strayUnit? with
        | some (entry, i) => .error (.offsetOutOfBounds i entry.offset)
        | none => .ok image

/-- The number of units that are announced within the limits. -/
def announcedUnits (limits : Limits) (bytes : List UInt8) : Nat :=
  match readCounts limits (.ofBytes bytes) with
  | .ok (_, count) _ => count
  | .error _ _ => 0

/-- The bytes that a table entry takes while it is read. -/
def entrySize : Nat := 24

/-- Reads an image where there is room for its announced table. -/
def load (memory : Memory) (limits : Limits) (bytes : List UInt8) : Except Stop Image :=
  if memory.holds (announcedUnits limits bytes) entrySize then
    match read limits bytes with
    | .ok image => .ok image
    | .error e => .error (.raised (.loadFailed e))
  else .error .exhausted

theorem load_eq_ok_iff {memory : Memory} {limits : Limits} {bytes : List UInt8} {image : Image} :
    load memory limits bytes = .ok image ↔
      memory.holds (announcedUnits limits bytes) entrySize = true ∧
        read limits bytes = .ok image := by
  rw [load]
  split
  · rename_i hroom
    cases read limits bytes <;> simp [hroom]
  · rename_i hfull
    simp [hfull]

theorem load_eq_error_iff {memory : Memory} {limits : Limits} {bytes : List UInt8} {stop : Stop} :
    load memory limits bytes = .error stop ↔
      memory.holds (announcedUnits limits bytes) entrySize = false ∧ stop = .exhausted ∨
        memory.holds (announcedUnits limits bytes) entrySize = true ∧
          ∃ cause, read limits bytes = .error cause ∧ stop = .raised (.loadFailed cause) := by
  rw [load]
  split
  · rename_i hroom
    cases read limits bytes <;> simp [hroom, eq_comm]
  · rename_i hfull
    simp [hfull, eq_comm]

/-- The number of globals that the header announces, if the header can be read. -/
def announcedGlobals? (bytes : List UInt8) : Option Nat :=
  match readHeader (.ofBytes bytes) with
  | .ok n _ => some n
  | .error _ _ => none

end Image

end ScriptCore
