import ScriptCore.Host

/-! # Subscripts and fields

Reading and writing inside a value. An alias of a host value stands for what it leads
to; where it leads from alias to alias without end, the access never ends. A write to null
first makes it an empty table. A write may change the variable it is made on and the host
storage that the variable reaches, and nothing else.
-/

namespace ScriptCore

/-- A variable and the host storage within its reach. -/
structure Place where
  target : Value
  host : Host

namespace Access

/-! ## Reading -/

/-- Subscript of a value that is no alias. -/
def readIndexAt (h : Host) (target key : Value) : Except ScriptError Value :=
  match target, key with
  | .array items, .int n =>
      match (Host.position? n).bind (items[·]?) with
      | some v => .ok v
      | none => .error (.indexOutOfRange n.toInt items.length)
  | .hash table, key => (Key.ofValue key).map fun k => (table.get? k).getD .null
  | .str s, .int n =>
      match (Host.position? n).bind (s.toUTF8.toList[·]?) with
      | some b => .ok (.int (Int64.ofNat b.toNat))
      | none => .error (.indexOutOfRange n.toInt s.utf8ByteSize)
  | .native (.slice r), .int n => h.readElement r n
  | .native (.record r), .str name => h.readMember r name
  | .native (.record _), key => .error (.invalidKey key.tag)
  | target, key => .error (.typeMismatch .readIndex target.tag key.tag)

def readIndex (h : Host) (target key : Value) : Except Stop Value :=
  match h.resolve target with
  | .ok v => raising (readIndexAt h v key)
  | .error e => .error e

/-- Named field of a value that is no alias. -/
def readFieldAt (h : Host) (target : Value) (name : String) : Except ScriptError Value :=
  match target with
  | .hash table => .ok ((table.get? (.str name)).getD .null)
  | .native (.record r) => h.readMember r name
  | other => .error (.wrongType .readField other.tag)

def readField (h : Host) (target : Value) (name : String) : Except Stop Value :=
  match h.resolve target with
  | .ok v => raising (readFieldAt h v name)
  | .error e => .error e

/-- Item count of a value that is no alias; a string counts its bytes. -/
def countAt (h : Host) : Value → Except ScriptError Nat
  | .array items => .ok items.length
  | .hash table => .ok table.size
  | .str s => .ok s.utf8ByteSize
  | .native (.slice r) => h.sliceLength r
  | .native (.record r) => .ok (h.record r).size
  | other => .error (.wrongType .count other.tag)

def count (h : Host) (target : Value) : Except Stop Nat :=
  match h.resolve target with
  | .ok v => raising (countAt h v)
  | .error e => .error e

def containsKey (target key : Value) : Except ScriptError Bool :=
  match target with
  | .hash table => (Key.ofValue key).map table.contains
  | other => .error (.wrongType .containsKey other.tag)

/-! ## Writing -/

/-- Null becomes an empty table. -/
def vivify : Value → Value
  | .null => .hash .empty
  | v => v

/-- Subscript write to a vivified value that is no alias. -/
def writeIndexAt (p : Place) (key value : Value) : Except ScriptError Place :=
  match p.target, key with
  | .array items, .int n =>
      match Host.position? n with
      | some i =>
          if i < items.length then .ok { p with target := .array (items.set i value) }
          else if i = items.length then .ok { p with target := .array (items ++ [value]) }
          else .error (.indexOutOfRange n.toInt items.length)
      | none => .error (.indexOutOfRange n.toInt items.length)
  | .array _, key => .error (.typeMismatch .readIndex .array key.tag)
  | .hash table, key =>
      (Key.ofValue key).map fun k => { p with target := .hash (table.insert k value) }
  | .native (.slice r), .int n =>
      match value with
      | .int v => (p.host.writeElement r n v).map fun h => { p with host := h }
      | other => .error (.typeMismatch .writeIndex .native other.tag)
  | .native (.record r), .str name =>
      (p.host.writeMember r name value).map fun h => { p with host := h }
  | .native (.record _), key => .error (.invalidKey key.tag)
  | target, key => .error (.typeMismatch .writeIndex target.tag key.tag)

/-- Field write to a vivified value that is no alias. -/
def writeFieldAt (p : Place) (name : String) (value : Value) : Except ScriptError Place :=
  match p.target with
  | .hash table => .ok { p with target := .hash (table.insert (.str name) value) }
  | .native (.record r) =>
      (p.host.writeMember r name value).map fun h => { p with host := h }
  | other => .error (.wrongType .writeField other.tag)

/-- Makes a write on a place. On an alias the write is made on a copy of what the alias
leads to, and the copies taken on the way are stored back once it has succeeded. A
failed write leaves the host as it was, and the variable vivified. -/
def write (edit : Place → Except ScriptError Place) : EStateM Stop Place Unit := fun p =>
  match p.target with
  | .native (.slot _) =>
      match p.host.follow p.target with
      | .error e => .error e p
      | .ok (passed, v) =>
          match edit { p with target := vivify v } with
          | .error e => .error e p
          | .ok q => .ok () { p with host := q.host.settle q.target passed }
  | target =>
      let p := { p with target := vivify target }
      match edit p with
      | .error e => .error e p
      | .ok q => .ok () q

def writeIndex (key value : Value) : EStateM Stop Place Unit :=
  write fun p => writeIndexAt p key value

def writeField (name : String) (value : Value) : EStateM Stop Place Unit :=
  write fun p => writeFieldAt p name value

/-- Removes a key from a table variable and returns what it held, or null. -/
def removeKey (key : Value) : EStateM ScriptError Value Value
  | .hash table =>
      match Key.ofValue key with
      | .ok k => .ok ((table.get? k).getD .null) (.hash (table.erase k))
      | .error e => .error e (.hash table)
  | other => .error (.wrongType .removeKey other.tag) other

/-- Stores `value` under `key` and returns what the table held there, or null. -/
def exchange (table : Table) (key : Key) (value : Value) : Value × Table :=
  ((table.get? key).getD .null, table.insert key value)

end Access

end ScriptCore
