import ScriptCore.Host
import ScriptCore.Width

/-! # Host functions

Scripts call functions of the host by name. A function is a value with a state of its
own; a call may change that state, the globals of the calling context and host storage,
and what it changed stays changed when it fails.
-/

namespace ScriptCore

/-- What a host function can change during a call. -/
structure NativeScope (φ : Type) where
  self : φ
  globals : List Value
  host : Host

/-- The values of `φ` are host functions. -/
class NativeFunction (φ : Type) where
  call (width : Width) (args : List Value) : EStateM ScriptError (NativeScope φ) Value

/-- The host functions that scripts can call, by name. -/
structure Registry (φ : Type) where
  functions : Dictionary String φ

namespace Registry

variable {φ : Type}

def empty : Registry φ := ⟨.empty⟩

def size (r : Registry φ) : Nat := r.functions.size

def contains (r : Registry φ) (name : String) : Bool := r.functions.contains name

/-- Makes a function known, in place of an earlier one of that name. -/
def register (r : Registry φ) (name : String) (f : φ) : Registry φ :=
  ⟨r.functions.insert name f⟩

def unregister (r : Registry φ) (name : String) : Registry φ :=
  ⟨r.functions.erase name⟩

/-- A one-line description. -/
def summary (r : Registry φ) : String :=
  "Natives \x7b len: " ++ Numeral.ofNat r.size ++ ", .. \x7d"

end Registry

/-- What running code can change: the globals of its context, the states of the host
functions and host storage. -/
structure World (φ : Type) where
  globals : List Value
  registry : Registry φ
  host : Host

namespace World

variable {φ : Type}

/-- The world after a host function has finished. -/
def afterCall (w : World φ) (name : String) (s : NativeScope φ) : World φ :=
  ⟨s.globals, w.registry.register name s.self, s.host⟩

def callNative [NativeFunction φ] (width : Width) (name : String) (args : List Value) :
    EStateM ScriptError (World φ) Value := fun w =>
  match w.registry.functions.get? name with
  | none => .error (.unknownNative name) w
  | some f =>
      match NativeFunction.call width args ⟨f, w.globals, w.host⟩ with
      | .ok v s => .ok v (w.afterCall name s)
      | .error e s => .error e (w.afterCall name s)

end World

end ScriptCore
