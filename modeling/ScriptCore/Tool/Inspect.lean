import ScriptCore.Image.Draft
import ScriptCore.Image.Listing
import ScriptCore.Tool.Basic

/-! # The `inspect` tool

Prints the listing of an image file, or of a built-in image when no file is named.
-/

namespace ScriptCore.Tool.Inspect

/-- What the arguments ask for. -/
inductive Request where
  | help
  | list (width : Width) (path : Option String)

/-- Reads the arguments in order. A request for help ends the reading, and of several paths
the last one counts. -/
def parse (width : Width) (path : Option String) : List String → Request
  | [] => .list width path
  | "--w32" :: rest => parse .w32 path rest
  | "-h" :: _ => .help
  | "--help" :: _ => .help
  | other :: rest => parse width (some other) rest

/-- The image shown when no file is named. -/
def builtin : Draft where
  globals := 3
  units :=
    [⟨.ofName "main", 0, [0x00]⟩,
      ⟨.ofName "on_tick", 1, [0x02, 0x00, 0x00]⟩,
      ⟨.ofName "on_event", 2, [0x01, 0x00]⟩]

def usage : String := "usage: inspect [--w32] [IMAGE]\n"

/-- The listing of an image at a working width. -/
def list (width : Width) (image : List UInt8) : Option Result :=
  (Listing.ofImage { width } image).map fun text => ⟨0, text, ""⟩

/-- Answers a request, given what reading the named file came to. -/
def answer (file : Except ReadFailure (List UInt8)) : Request → Option Result
  | .help => some ⟨0, usage, ""⟩
  | .list width none => list width builtin.image
  | .list width (some path) =>
      match file with
      | .ok image => list width image
      | .error failure =>
          some ⟨1, "", "inspect: cannot read " ++ path ++ ": " ++ failure.message ++ "\n"⟩

/-- The file that a request needs. -/
def Request.path? : Request → Option String
  | .list _ path => path
  | .help => none

end ScriptCore.Tool.Inspect
