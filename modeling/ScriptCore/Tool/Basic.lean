/-! # Command-line tools -/

namespace ScriptCore.Tool

/-- What a tool leaves behind. -/
structure Result where
  code : UInt8
  stdout : String
  stderr : String

/-- Why a file could not be read. -/
inductive ReadFailure where
  | missing
  | other (report : String)

def ReadFailure.message : ReadFailure → String
  | .missing => "No such file or directory (os error 2)"
  | .other report => report

end ScriptCore.Tool
