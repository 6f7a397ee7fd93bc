import ScriptCore.Error

/-! # Host storage

The host owns integer buffers and single values; scripts reach them through handles
that do not own. A piece of storage is live while it has a host-side owner, and every
access to storage without one fails. Records are open sets of named fields shared by all
their holders; a field holds a value, or stands for a buffer or a host value.
-/

namespace ScriptCore

/-- A piece of storage and how many host-side owners it has. -/
structure Storage (α : Type) where
  content : α
  owners : Nat

/-- Integers of one element type, as stored patterns. -/
structure Buffer where
  elem : Element
  cells : List (BitVec elem.bits)

namespace Buffer

def ofInts (elem : Element) (values : List Int64) : Buffer :=
  ⟨elem, values.map elem.narrow⟩

def zeroed (elem : Element) (length : Nat) : Buffer :=
  ⟨elem, List.replicate length 0⟩

def toInts (b : Buffer) : List Int64 :=
  b.cells.map b.elem.widen

def length (b : Buffer) : Nat :=
  b.cells.length

def get? (b : Buffer) (i : Nat) : Option Int64 :=
  b.cells[i]?.map b.elem.widen

/-- Stores `n`, reduced to the element type; a position past the end changes nothing. -/
def set (b : Buffer) (i : Nat) (n : Int64) : Buffer :=
  ⟨b.elem, b.cells.set i (b.elem.narrow n)⟩

end Buffer

inductive Field where
  | value (v : Value)
  | slice (buffer : BufferRef)
  | slot (slot : SlotRef)

abbrev Record := Dictionary String Field

structure Host where
  buffers : List (Storage Buffer)
  slots : List (Storage Value)
  records : List Record

namespace Host

def empty : Host := ⟨[], [], []⟩

/-- The position that an integer subscript denotes. -/
def position? (n : Int64) : Option Nat :=
  if 0 ≤ n.toInt then some n.toInt.toNat else none

/-! ## Buffers -/

/-- New storage with one owner. -/
def addBuffer (h : Host) (b : Buffer) : BufferRef × Host :=
  (⟨b.elem, h.buffers.length⟩, { h with buffers := h.buffers ++ [⟨b, 1⟩] })

/-- The buffer that a reference names, while it is live. A reference finds storage of its
own element type only. -/
def buffer? (h : Host) (r : BufferRef) : Option Buffer :=
  match h.buffers[r.index]? with
  | some s => if 0 < s.owners ∧ s.content.elem = r.elem then some s.content else none
  | none => none

def modifyBuffer (h : Host) (r : BufferRef) (f : Storage Buffer → Storage Buffer) : Host :=
  { h with buffers := h.buffers.modify r.index f }

def setBuffer (h : Host) (r : BufferRef) (b : Buffer) : Host :=
  h.modifyBuffer r fun s => { s with content := b }

/-- One more owner. -/
def retainBuffer (h : Host) (r : BufferRef) : Host :=
  h.modifyBuffer r fun s => { s with owners := s.owners + 1 }

/-- One owner fewer. -/
def releaseBuffer (h : Host) (r : BufferRef) : Host :=
  h.modifyBuffer r fun s => { s with owners := s.owners - 1 }

def sliceLength (h : Host) (r : BufferRef) : Except ScriptError Nat :=
  match h.buffer? r with
  | some b => .ok b.length
  | none => .error .dangling

/-- Reads the element that the script subscript `n` denotes. -/
def readElement (h : Host) (r : BufferRef) (n : Int64) : Except ScriptError Value :=
  match h.buffer? r with
  | none => .error .dangling
  | some b =>
      match (position? n).bind b.get? with
      | some v => .ok (.int v)
      | none => .error (.indexOutOfRange n.toInt b.length)

/-- Writes the element that the script subscript `n` denotes. -/
def writeElement (h : Host) (r : BufferRef) (n v : Int64) : Except ScriptError Host :=
  match h.buffer? r with
  | none => .error .dangling
  | some b =>
      match position? n with
      | some i =>
          if i < b.length then .ok (h.setBuffer r (b.set i v))
          else .error (.indexOutOfRange n.toInt b.length)
      | none => .error (.indexOutOfRange n.toInt b.length)

/-! ## Host values -/

/-- New storage with one owner. -/
def addSlot (h : Host) (v : Value) : SlotRef × Host :=
  (⟨h.slots.length⟩, { h with slots := h.slots ++ [⟨v, 1⟩] })

/-- The value that a reference names, while it is live. -/
def slot? (h : Host) (r : SlotRef) : Option Value :=
  match h.slots[r.index]? with
  | some s => if 0 < s.owners then some s.content else none
  | none => none

def modifySlot (h : Host) (r : SlotRef) (f : Storage Value → Storage Value) : Host :=
  { h with slots := h.slots.modify r.index f }

def setSlot (h : Host) (r : SlotRef) (v : Value) : Host :=
  h.modifySlot r fun s => { s with content := v }

/-- One more owner. -/
def retainSlot (h : Host) (r : SlotRef) : Host :=
  h.modifySlot r fun s => { s with owners := s.owners + 1 }

/-- One owner fewer. -/
def releaseSlot (h : Host) (r : SlotRef) : Host :=
  h.modifySlot r fun s => { s with owners := s.owners - 1 }

/-! ## Records -/

def addRecord (h : Host) : RecordRef × Host :=
  (⟨h.records.length⟩, { h with records := h.records ++ [.empty] })

def record (h : Host) (r : RecordRef) : Record :=
  h.records[r.index]?.getD .empty

/-- Attaches a field, or replaces the one of that name. -/
def attach (h : Host) (r : RecordRef) (name : String) (field : Field) : Host :=
  { h with records := h.records.modify r.index (·.insert name field) }

/-- Reads a field as a value. A field that stands for a buffer reads as a handle to it, and
a missing field as null. -/
def readMember (h : Host) (r : RecordRef) (name : String) : Except ScriptError Value :=
  match (h.record r).get? name with
  | none => .ok .null
  | some (.value v) => .ok v
  | some (.slice b) => .ok (.native (.slice b))
  | some (.slot s) =>
      match h.slot? s with
      | some v => .ok v
      | none => .error .dangling

/-- Writes a field. A field that stands for a host value is written through to it; any
other field becomes a plain value. -/
def writeMember (h : Host) (r : RecordRef) (name : String) (v : Value) : Except ScriptError Host :=
  match (h.record r).get? name with
  | some (.slot s) =>
      match h.slot? s with
      | some _ => .ok (h.setSlot s v)
      | none => .error .dangling
  | _ => .ok (h.attach r name (.value v))

/-! ## Aliases -/

/-- Follows aliases of host values from `v`, over at most `fuel` of them: the host values
passed and the first content that is no alias. -/
def trail (h : Host) : Nat → Value → Except Stop (List SlotRef × Value)
  | 0, .native (.slot _) => .error .endless
  | fuel + 1, .native (.slot r) =>
      match h.slot? r with
      | none => .error (.raised .dangling)
      | some inner => (h.trail fuel inner).map fun (passed, v) => (r :: passed, v)
  | _, v => .ok ([], v)

/-- The host values passed from `v` on, and where they lead. A trail that ends passes no
host value twice, so one that is longer than there are host values never ends. -/
def follow (h : Host) (v : Value) : Except Stop (List SlotRef × Value) :=
  h.trail (h.slots.length + 1) v

/-- The first value on the way from `v` that is no alias. -/
def resolve (h : Host) (v : Value) : Except Stop Value :=
  (h.follow v).map Prod.snd

/-- Stores `v` at the end of a trail, and in each earlier host value the alias of the one
after it. -/
def settle (h : Host) (v : Value) : List SlotRef → Host
  | [] => h
  | [r] => h.setSlot r v
  | r :: next :: rest => (h.settle v (next :: rest)).setSlot r (.native (.slot next))

end Host

end ScriptCore
