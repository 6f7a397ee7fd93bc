import ScriptCore.Decimal.Shortest
import ScriptCore.Text.Numeral
import ScriptCore.Value

/-! # Canonical text of values

Scalars are written out. Containers, handles and unit references are summarised in
brackets.
-/

namespace ScriptCore.Value

def text : Value → String
  | .null => "null"
  | .int n => Numeral.ofInt n.toInt
  | .float x => Decimal.floatText x
  | .str s => s
  | .array items => "[array:" ++ Numeral.ofNat items.length ++ "]"
  | .hash table => "[hash:" ++ Numeral.ofNat table.size ++ "]"
  | .native handle => "[native:" ++ handle.kind ++ "]"
  | .unit ref => "[unit:" ++ ref.hash.text ++ "]"

end ScriptCore.Value
