import ScriptCore.Session.Basic

/-! # Commands on host storage

Binding a name to storage makes the name one of its owners, in place of what the name
owned before. Dropping a name gives up its share.
-/

namespace ScriptCore

inductive StorageCommand where
  | newBuffer (name : String) (content : Buffer)
  | bufferGet (name : String) (index : Nat)
  | bufferSet (name : String) (index : Nat) (n : Int64)
  | bufferContents (name : String)
  | bufferHandle (name : String)
  | cloneBuffer (name copy : String)
  | dropBuffer (name : String)
  /-- Element type and length behind a slice handle. -/
  | inspectSlice (target : Term)
  | newSlot (name : String) (t : Term)
  | slotGet (name : String)
  | slotSet (name : String) (t : Term)
  | slotHandle (name : String)
  | cloneSlot (name copy : String)
  | dropSlot (name : String)
  | newRecord (name : String)
  | addValue (record field : String) (t : Term)
  | addBuffer (record field buffer : String)
  | addSlot (record field slot : String)
  | recordGet (record field : String)
  | recordHandle (record : String)
  | dropRecord (record : String)
  /-- The raw field behind a record handle. -/
  | inspectField (target : Term) (field : String)

namespace Session

/-- The host once a name no longer owns a buffer. -/
def releasedBuffer (s : Session) (name : String) : Host :=
  match s.buffers.get? name with
  | some r => s.host.releaseBuffer r
  | none => s.host

/-- Lets `name` own a buffer that already counts it as an owner. -/
def bindBuffer (s : Session) (name : String) (r : BufferRef) : Session :=
  { s with buffers := s.buffers.insert name r, host := s.releasedBuffer name }

def unbindBuffer (s : Session) (name : String) : Session :=
  { s with buffers := s.buffers.erase name, host := s.releasedBuffer name }

/-- The host once a name no longer owns a host value. -/
def releasedSlot (s : Session) (name : String) : Host :=
  match s.slots.get? name with
  | some r => s.host.releaseSlot r
  | none => s.host

/-- Lets `name` own a host value that already counts it as an owner. -/
def bindSlot (s : Session) (name : String) (r : SlotRef) : Session :=
  { s with slots := s.slots.insert name r, host := s.releasedSlot name }

def unbindSlot (s : Session) (name : String) : Session :=
  { s with slots := s.slots.erase name, host := s.releasedSlot name }

end Session

namespace StorageCommand

open Session

/-- Continues with the buffer that a name owns. -/
def withBuffer (name : String) (k : BufferRef → Buffer → Act Reply) : Act Reply := do
  let s ← get
  found (s.buffers.get? name) fun r => found (s.host.buffer? r) (k r)

/-- Continues with the host value that a name owns. -/
def withSlot (name : String) (k : SlotRef → Value → Act Reply) : Act Reply := do
  let s ← get
  found (s.slots.get? name) fun r => found (s.host.slot? r) (k r)

def withRecord (name : String) (k : RecordRef → Act Reply) : Act Reply := do
  found ((← get).records.get? name) k

def setHost (h : Host) : Act Unit :=
  modify ({ · with host := h })

def perform : StorageCommand → Act Reply
  | .newBuffer name content => do
      let (r, host) := (← get).host.addBuffer content
      setHost host
      modify (·.bindBuffer name r)
      return .elements content.toInts
  | .bufferGet name index => withBuffer name fun _ b => return .element (b.get? index)
  | .bufferSet name index n =>
      withBuffer name fun r b => do
        modify fun s => { s with host := s.host.setBuffer r (b.set index n) }
        return .flag (index < b.length)
  | .bufferContents name => withBuffer name fun _ b => return .contents b.toInts
  | .bufferHandle name => withBuffer name fun r _ => return .value (.native (.slice r))
  | .cloneBuffer name copy =>
      withBuffer name fun r _ => do
        modify fun s => { s with host := s.host.retainBuffer r }
        modify (·.bindBuffer copy r)
        return .done
  | .dropBuffer name => do
      let known := (← get).buffers.contains name
      modify (·.unbindBuffer name)
      return .flag known
  | .inspectSlice target => do
      match ← eval target with
      | .native (.slice r) =>
          return .slice r.elem ((← get).host.sliceLength r)
      | _ => return .refused
  | .newSlot name t => do
      let v ← eval t
      let (r, host) := (← get).host.addSlot v
      setHost host
      modify (·.bindSlot name r)
      return .done
  | .slotGet name => withSlot name fun _ v => return .value v
  | .slotSet name t => do
      let v ← eval t
      withSlot name fun r _ => do
        modify fun s => { s with host := s.host.setSlot r v }
        return .done
  | .slotHandle name => withSlot name fun r _ => return .value (.native (.slot r))
  | .cloneSlot name copy =>
      withSlot name fun r _ => do
        modify fun s => { s with host := s.host.retainSlot r }
        modify (·.bindSlot copy r)
        return .done
  | .dropSlot name => do
      let known := (← get).slots.contains name
      modify (·.unbindSlot name)
      return .flag known
  | .newRecord name => do
      let (r, host) := (← get).host.addRecord
      setHost host
      modify fun s => { s with records := s.records.insert name r }
      return .done
  | .addValue record field t => do
      let v ← eval t
      withRecord record fun r => do
        modify fun s => { s with host := s.host.attach r field (.value v) }
        return .done
  | .addBuffer record field buffer =>
      withRecord record fun r => withBuffer buffer fun b _ => do
        modify fun s => { s with host := s.host.attach r field (.slice b) }
        return .done
  | .addSlot record field slot =>
      withRecord record fun r => withSlot slot fun v _ => do
        modify fun s => { s with host := s.host.attach r field (.slot v) }
        return .done
  | .recordGet record field =>
      withRecord record fun r => do
        return .value (← attempt ((← get).host.readMember r field))
  | .recordHandle record => withRecord record fun r => return .value (.native (.record r))
  | .dropRecord record => do
      let known := (← get).records.contains record
      modify fun s => { s with records := s.records.erase record }
      return .flag known
  | .inspectField target field => do
      match ← eval target with
      | .native (.record r) =>
          let fields := (← get).host.record r
          return .field ((fields.get? field).map FieldKind.ofField) fields.size
      | _ => return .refused

end StorageCommand

end ScriptCore
