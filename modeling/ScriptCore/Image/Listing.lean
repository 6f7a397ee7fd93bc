import ScriptCore.Context

/-! # Listings

The text that describes an image: how many globals and units it has, and a line for each
unit. An image that cannot be loaded is described by the reason and by what its header
announces. Where loading has no result, there is no text either.
-/

namespace ScriptCore.Listing

def counts (globals units : Nat) : String :=
  Numeral.ofNat globals ++ " globals\n" ++ Numeral.ofNat units ++ " units\n"

def unitLine (i : Nat) (u : UnitEntry) : String :=
  Numeral.ofNat i ++ " [" ++ u.hash.text ++ "] offset[" ++ Numeral.ofNat u.offset
    ++ "] arguments[" ++ Numeral.ofNat u.params.toNat ++ "]\n"

/-- The lines of units numbered from `i` on. -/
def unitLines (i : Nat) : List UnitEntry → String
  | [] => ""
  | u :: rest => unitLine i u ++ unitLines (i + 1) rest

def ofImage (config : Config) (bytes : List UInt8) (memory : Memory := .full) : Option String :=
  match Context.load ⟨0⟩ true config bytes memory with
  | .ok c => some (counts c.globals.length c.units.length ++ unitLines 0 c.units)
  | .error (.raised e) =>
      some ("error: " ++ e.message ++ "\n" ++ counts ((Image.announcedGlobals? bytes).getD 0) 0)
  | .error _ => none

end ScriptCore.Listing
