import ScriptCore.Varint

/-! # Reading bytes

A cursor stands at a position of a byte string. A failed read of fixed length leaves it
where it stood; a failed varint leaves it behind the bytes that were looked at.
-/

namespace ScriptCore

/-- How many bytes have been read, and those still to read. -/
structure Cursor where
  pos : Nat
  rest : List UInt8

/-- Reading moves the cursor, also when it fails. -/
abbrev Read := EStateM LoadError Cursor

namespace Cursor

def ofBytes (bytes : List UInt8) : Cursor := ⟨0, bytes⟩

def atEnd (c : Cursor) : Bool := c.rest.isEmpty

/-- The cursor once only `rest` is left to read. -/
def leaving (c : Cursor) (rest : List UInt8) : Cursor :=
  ⟨c.pos + (c.rest.length - rest.length), rest⟩

def byte : Read UInt8 := fun c =>
  match c.rest with
  | [] => .error .unexpectedEnd c
  | b :: rest => .ok b ⟨c.pos + 1, rest⟩

/-- The next `n` bytes. -/
def take (n : Nat) : Read (List UInt8) := fun c =>
  if n ≤ c.rest.length then .ok (c.rest.take n) ⟨c.pos + n, c.rest.drop n⟩
  else .error .unexpectedEnd c

/-- The number whose base-256 digits are `bytes`, lowest first. -/
def littleEndian (bytes : List UInt8) : Nat :=
  bytes.foldr (fun b n => b.toNat + 256 * n) 0

/-- The `count` lowest base-256 digits of `n`, lowest first. -/
def toLittleEndian : Nat → Nat → List UInt8
  | 0, _ => []
  | count + 1, n => UInt8.ofNat n :: toLittleEndian count (n / 256)

/-- A 64-bit word, lowest byte first. -/
def word : Read UInt64 := do
  return UInt64.ofNat (littleEndian (← take 8))

def varint : Read Nat := fun c =>
  match Varint.decode c.rest with
  | (.ok n, rest) => .ok n (c.leaving rest)
  | (.error e, rest) => .error e (c.leaving rest)

def signedVarint : Read Int := fun c =>
  match Varint.decodeInt c.rest with
  | (.ok z, rest) => .ok z (c.leaving rest)
  | (.error e, rest) => .error e (c.leaving rest)

end Cursor

end ScriptCore
