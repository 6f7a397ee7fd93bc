import ScriptCore.Error

/-! # Arrays

Operations on a variable that holds an array. A failed operation leaves the variable as
it was. Operations that change the number of items return the new count.
-/

namespace ScriptCore.Sequence

/-- Runs `edit` on the items of an array variable. -/
def onItems {α : Type} (op : Operation) (edit : List Value → Except ScriptError (α × List Value)) :
    EStateM ScriptError Value α
  | .array items =>
      match edit items with
      | .ok (result, items') => .ok result (.array items')
      | .error e => .error e (.array items)
  | other => .error (.wrongType op other.tag) other

/-- New items together with their count. -/
def counted (items : List Value) : Nat × List Value :=
  (items.length, items)

/-- Appends at the back. -/
def push (v : Value) : EStateM ScriptError Value Nat :=
  onItems .push fun items => .ok (counted (items ++ [v]))

/-- Removes the first item and returns it. -/
def popFront : EStateM ScriptError Value Value :=
  onItems .popFront fun
    | [] => .error .emptyContainer
    | v :: rest => .ok (v, rest)

/-- Removes the last item and returns it. -/
def popBack : EStateM ScriptError Value Value :=
  onItems .popBack fun items =>
    match items.getLast? with
    | none => .error .emptyContainer
    | some v => .ok (v, items.dropLast)

/-- Inserts before position `at?`, or at the back when no position is given. -/
def insert (v : Value) (at? : Option Nat) : EStateM ScriptError Value Nat :=
  onItems .insert fun items =>
    let i := at?.getD items.length
    if i ≤ items.length then .ok (counted (items.take i ++ v :: items.drop i))
    else .error (.positionOutOfRange i items.length)

/-- Removes `count?` items (one when not given) from position `i` on, or as many as there
are. -/
def remove (i : Nat) (count? : Option Nat) : EStateM ScriptError Value Nat :=
  onItems .remove fun items =>
    if i < items.length then .ok (counted (items.take i ++ items.drop (i + count?.getD 1)))
    else .error (.positionOutOfRange i items.length)

/-- Keeps the first `count` items. -/
def truncate (count : Nat) : EStateM ScriptError Value Nat :=
  onItems .truncate fun items => .ok (counted (items.take count))

/-- Makes the variable an empty array, whatever it held. -/
def clear : EStateM ScriptError Value Unit := fun _ =>
  .ok () (.array [])

/-- The last item. -/
def peek : Value → Except ScriptError Value
  | .array items =>
      match items.getLast? with
      | some v => .ok v
      | none => .error .emptyContainer
  | other => .error (.wrongType .peek other.tag)

end ScriptCore.Sequence
