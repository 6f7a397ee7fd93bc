import ScriptCore.Tool.Bridge
import ScriptCore.Tool.Inspect

/-! # Command line

`inspect [--w32] [IMAGE]` prints the listing of an image; `bridge` runs the demonstration
of shared storage.
-/

namespace ScriptCore.Tool

def readImage (path : String) : IO (Except ReadFailure (List UInt8)) := do
  try
    return .ok (← IO.FS.readBinFile path).toList
  catch e =>
    match e with
    | .noFileOrDirectory .. => return .error .missing
    | other => return .error (.other (toString other))

def runInspect (args : List String) : IO (Option Result) := do
  let request := Inspect.parse .w64 none args
  match request.path? with
  | some path => return Inspect.answer (← readImage path) request
  | none => return Inspect.answer (.error .missing) request

/-- Prints a result; a tool without one is aborted. -/
def finish : Option Result → IO UInt32
  | some r => do
      IO.print r.stdout
      IO.eprint r.stderr
      return r.code.toUInt32
  | none => return 134

def run : List String → IO UInt32
  | "inspect" :: rest => do finish (← runInspect rest)
  | "bridge" :: _ => finish Bridge.run
  | _ => do
      IO.eprintln "usage: inspect [--w32] [IMAGE] | bridge"
      return 2

end ScriptCore.Tool

def main (args : List String) : IO UInt32 :=
  ScriptCore.Tool.run args
