import ScriptCore.Sequence
import ScriptCore.Session.Basic

/-! # Commands on arrays, tables, subscripts and fields -/

namespace ScriptCore

inductive ContainerCommand where
  | push (var : String) (t : Term)
  | popFront (var : String)
  | popBack (var : String)
  | insert (var : String) (t : Term) (at? : Option Nat)
  | remove (var : String) (index : Nat) (count? : Option Nat)
  | truncate (var : String) (count : Nat)
  | clear (var : String)
  | peek (target : Term)
  | readIndex (target key : Term)
  | writeIndex (var : String) (key t : Term)
  | readField (target : Term) (name : String)
  | writeField (var : String) (name : String) (t : Term)
  | removeKey (var : String) (key : Term)
  | containsKey (target key : Term)
  | count (target : Term)
  /-- The keys of a table, in order. -/
  | keys (target : Term)
  /-- Stores a table entry and answers with the one it replaces. -/
  | exchange (var : String) (key t : Term)

namespace ContainerCommand

open Session

def perform : ContainerCommand → Act Reply
  | .push var t => do
      let v ← eval t
      return .count (← onVariable var (Sequence.push v))
  | .popFront var => return .value (← onVariable var Sequence.popFront)
  | .popBack var => return .value (← onVariable var Sequence.popBack)
  | .insert var t at? => do
      let v ← eval t
      return .count (← onVariable var (Sequence.insert v at?))
  | .remove var index count? => return .count (← onVariable var (Sequence.remove index count?))
  | .truncate var n => return .count (← onVariable var (Sequence.truncate n))
  | .clear var => do
      onVariable var Sequence.clear
      return .done
  | .peek target => return .value (← attempt (Sequence.peek (← eval target)))
  | .readIndex target key => do
      let target ← eval target
      let key ← eval key
      return .value (← await (Access.readIndex (← get).host target key))
  | .writeIndex var key t => do
      let key ← eval key
      let v ← eval t
      onPlace var (Access.writeIndex key v)
      return .done
  | .readField target name => do
      let target ← eval target
      return .value (← await (Access.readField (← get).host target name))
  | .writeField var name t => do
      let v ← eval t
      onPlace var (Access.writeField name v)
      return .done
  | .removeKey var key => do
      let key ← eval key
      return .value (← onVariable var (Access.removeKey key))
  | .containsKey target key => do
      let target ← eval target
      let key ← eval key
      return .flag (← attempt (Access.containsKey target key))
  | .count target => do
      let target ← eval target
      return .count (← await (Access.count (← get).host target))
  | .keys target => do
      match ← eval target with
      | .hash table => return .value (.array (table.keys.map Key.toValue))
      | _ => return .refused
  | .exchange var key t => do
      let key ← eval key
      let v ← eval t
      let k ← attempt (Key.ofValue key)
      match (← get).valueOf var with
      | .hash table =>
          let (old, table') := Access.exchange table k v
          store var (.hash table')
          return .value old
      | _ => return .refused

end ContainerCommand

end ScriptCore
