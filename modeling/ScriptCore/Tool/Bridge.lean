import ScriptCore.Access
import ScriptCore.Context
import ScriptCore.Image.Draft
import ScriptCore.Tool.Basic
import ScriptCore.Value.Text

/-! # The `bridge` tool

Shows a host and a script working on the same storage. The host exposes a device record
with a name, a buffer of samples and a status; the script stores readings in it; the host
sees them at once. When the host gives up the buffer, the script's view of it fails.
-/

namespace ScriptCore.Tool.Bridge

/-- The functions of the demonstration host. -/
inductive Device where
  /-- Returns the device record. -/
  | device (handle : Value)
  /-- Writes its arguments as a line of the log. -/
  | log (lines : List String)

namespace Device

def logLine (args : List Value) : String :=
  "  script log: " ++ " ".intercalate (args.map Value.text)

def call (args : List Value) : EStateM ScriptError (NativeScope Device) Value := fun s =>
  match s.self with
  | .device handle => .ok handle s
  | .log lines => .ok .null { s with self := .log (lines ++ [logLine args]) }

instance : NativeFunction Device := ⟨fun _ => call⟩

end Device

/-- The lines logged so far. -/
def logged (r : Registry Device) : List String :=
  match r.functions.get? "log" with
  | some (.log lines) => lines
  | _ => []

/-- Stores the second argument as the sample numbered by the first, marks the device busy,
and reads the sample back. -/
def sample : Executor Unit Device := fun frame => do
  let device ← Running.callNative frame.width "device" []
  let samples ← Running.readField device "samples"
  let samples ← Running.change (Access.writeIndex (frame.arg 0) (frame.arg 1)) samples
  let device ← Running.change (Access.writeField "status" (.str "busy")) device
  let name ← Running.readField device "name"
  let _ ← Running.callNative frame.width "log" [name, frame.arg 1]
  Running.readIndex samples (frame.arg 0)

/-- The host's own references to what it shares. -/
structure Shared where
  samples : BufferRef
  status : SlotRef
  device : RecordRef

/-- A device with four samples and a status. -/
def setUp : Shared × Host :=
  let (samples, h) := Host.empty.addBuffer (.zeroed .u16 4)
  let (status, h) := h.addSlot (.str "idle")
  let (device, h) := h.addRecord
  let h := h.attach device "name" (.value (.str "probe-1"))
  let h := h.attach device "samples" (.slice samples)
  let h := h.attach device "status" (.slot status)
  (⟨samples, status, device⟩, h)

def program : Draft where
  globals := 0
  units := [⟨.ofName "sample", 2, [0x00]⟩]

/-- What the host sees of its storage. -/
def view (own : Shared) (h : Host) : String :=
  let samples := ((h.buffer? own.samples).map Buffer.toInts).getD []
  let status := (h.slot? own.status).getD .null
  "samples=[" ++ ", ".intercalate (samples.map fun n => Numeral.ofInt n.toInt)
    ++ "] status=" ++ status.text

abbrev Site := CallSite Unit Device

/-- Lets the script store one reading: the lines printed and what the call leaves behind. -/
def store (site : Site) (index reading : Int64) : Except Stop (List String × Site) :=
  let args := [.int index, .int reading]
  match Context.call sample (.ofName "sample") args site with
  | .error e _ => .error e
  | .ok stored site' =>
      let lines := (logged site'.registry).drop (logged site.registry).length
      .ok (lines ++ ["  stored " ++ Numeral.ofInt reading.toInt ++ " at ["
        ++ Numeral.ofInt index.toInt ++ "] -> reads back " ++ stored.text], site')

/-- What the script finds once the host has given up the samples. -/
def afterDrop (own : Shared) (h : Host) : Except Stop String := do
  let samples ← Access.readField h (.native (.record own.device)) "samples"
  match Access.readIndex h samples (.int 0) with
  | .error (.raised e) => return "after the host drops the buffer: " ++ e.message
  | .error stop => throw stop
  | .ok v => return "unexpected read: " ++ v.text

def script : Except Stop (List String) := do
  let (own, host) := setUp
  let handle := Value.native (.record own.device)
  let registry := (Registry.empty.register "device" (.device handle)).register "log" (.log [])
  let context ← Context.load ⟨1⟩ true {} program.image
  let site : Site := ⟨context, (), registry, host⟩
  let before := "host before: " ++ view own site.host
  let (first, site) ← store site 0 17
  let (second, site) ← store site 2 70000
  let after := "host after:  " ++ view own site.host
  let last ← afterDrop own (site.host.releaseBuffer own.samples)
  return [before] ++ first ++ second ++ [after, last]

def run : Option Result :=
  match script with
  | .ok lines => some ⟨0, String.join (lines.map (· ++ "\n")), ""⟩
  | .error (.raised e) => some ⟨1, "", "bridge: " ++ e.message ++ "\n"⟩
  | .error _ => none

end ScriptCore.Tool.Bridge
