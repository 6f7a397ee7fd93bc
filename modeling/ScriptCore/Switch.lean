import ScriptCore.Comparison

/-! # Switches

A switch is a list of arms, each with a label or the default. A value selects the first
arm whose label equals it, or else the first default arm. Labels are laid out ahead of
time as a jump table, as an index from keys to arms, or not at all, and every layout
selects the same arm. Running a switch falls through from the selected arm until a body
breaks off.
-/

namespace ScriptCore

/-- A scalar that an arm is labelled with. -/
inductive Label where
  | null
  | int (n : Int64)
  | float (x : Float)
  | str (s : String)

namespace Label

def toValue : Label → Value
  | .null => .null
  | .int n => .int n
  | .float x => .float x
  | .str s => .str s

def ofValue : Value → Except ScriptError Label
  | .null => .ok .null
  | .int n => .ok (.int n)
  | .float x => .ok (.float x)
  | .str s => .ok (.str s)
  | other => .error (.wrongType .label other.tag)

def int? : Label → Option Int64
  | .int n => some n
  | _ => none

/-- Whether the label equals a value. -/
def accepts : Label → Value → Bool
  | .null, .null => true
  | .int l, .int n => l == n
  | .float l, .float x => l == x
  | .int i, .float f | .float f, .int i => Comparison.intFloatOrder i f == some .eq
  | .str l, .str s => l == s
  | _, _ => false

end Label

/-- A label that equals values of its own type only, and so can be looked up. -/
inductive LabelKey where
  | null
  | int (n : Int64)
  | str (s : String)
deriving DecidableEq

namespace LabelKey

def ofLabel? : Label → Option LabelKey
  | .null => some .null
  | .int n => some (.int n)
  | .str s => some (.str s)
  | .float _ => none

def ofValue? : Value → Option LabelKey
  | .null => some .null
  | .int n => some (.int n)
  | .str s => some (.str s)
  | _ => none

end LabelKey

/-- What an executed body asks for. -/
inductive Flow where
  | next
  | leave
deriving DecidableEq

/-- One arm; no label makes it a default arm. -/
structure Arm (β : Type) where
  label : Option Label
  body : β

/-- Whether the arm has a label that equals `v`. -/
def Arm.accepts {β : Type} (arm : Arm β) (v : Value) : Bool :=
  arm.label.any (·.accepts v)

/-- How labels are laid out for look-up. -/
inductive Plan where
  /-- Slot `i` holds the first arm labelled `base + i`. -/
  | dense (base : Int64) (slots : List (Option Nat))
  /-- The first arm of each label. -/
  | keyed (index : List (LabelKey × Nat))
  /-- Arms are tried in order. -/
  | scan

namespace Plan

/-- Labels further apart than this never make a jump table. -/
def maxSpan : Nat := 256

/-- Fewer labels than this are not worth an index. -/
def minKeyed : Nat := 8

/-- `v - base` as a position, if the difference is a word that is not negative. -/
def offset? (base v : Int64) : Option Nat :=
  let d := v.toInt - base.toInt
  if 0 ≤ d ∧ d ≤ Int64.maxValue.toInt then some d.toNat else none

/-- Records an arm in a slot that is still free. -/
def fill (slots : List (Option Nat)) (i arm : Nat) : List (Option Nat) :=
  slots.modify i fun
    | none => some arm
    | some earlier => some earlier

/-- The jump table of integer labels that lie close together: they span fewer than
`maxSpan` steps, and at least every second slot could be taken. -/
def dense? : List (Nat × Int64) → Option Plan
  | [] => none
  | (arm, n) :: rest =>
      let labels := (arm, n) :: rest
      let low := rest.foldl (fun m l => min m l.2) n
      let high := rest.foldl (fun m l => max m l.2) n
      let span := (high.toInt - low.toInt).toNat
      if span < maxSpan ∧ span + 1 ≤ 2 * labels.length then
        some (.dense low (labels.foldl (fun slots l => fill slots (l.2 - low).toInt.toNat l.1)
          (List.replicate (span + 1) none)))
      else none

/-- The index of labels that can be looked up, if all of them can. -/
def keyed? (labels : List (Nat × Label)) : Option Plan :=
  (labels.mapM fun l => (LabelKey.ofLabel? l.2).map (·, l.1)).map .keyed

/-- Integer labels close together make a jump table; otherwise enough labels make an
index, unless one of them is a float. -/
def ofLabels (labels : List (Nat × Label)) : Plan :=
  let ints := labels.mapM fun l => l.2.int?.map (l.1, ·)
  match ints.bind dense? with
  | some plan => plan
  | none =>
      if minKeyed ≤ labels.length then (keyed? labels).getD .scan else .scan

end Plan

structure Switch (β : Type) where
  arms : List (Arm β)
  plan : Plan

namespace Switch

variable {β : Type}

/-- The labels of the arms with their positions. -/
def labels (arms : List (Arm β)) : List (Nat × Label) :=
  arms.zipIdx.filterMap fun (arm, i) => arm.label.map (i, ·)

def ofArms (arms : List (Arm β)) : Switch β :=
  ⟨arms, Plan.ofLabels (labels arms)⟩

/-- The first default arm. -/
def fallback (s : Switch β) : Option Nat :=
  s.arms.findIdx? fun arm => arm.label.isNone

/-- Tries the arms in order. -/
def probe (s : Switch β) (v : Value) : Option Nat :=
  s.arms.findIdx? (·.accepts v)

/-- The first arm labelled with `v`. A float may equal integer labels, so the tables do not
apply to it. -/
def find (s : Switch β) (v : Value) : Option Nat :=
  match s.plan, v with
  | .scan, _ => s.probe v
  | _, .float _ => s.probe v
  | .dense base slots, .int n => (Plan.offset? base n).bind fun i => (slots[i]?).join
  | .keyed index, v => (LabelKey.ofValue? v).bind fun k => index.lookup k
  | .dense _ _, _ => none

/-- The arm that `v` selects. -/
def resolve (s : Switch β) (v : Value) : Option Nat :=
  (s.find v).or s.fallback

/-- The positions of all arms whose label equals `v`. -/
def matching (s : Switch β) (v : Value) : List Nat :=
  s.arms.zipIdx.filterMap fun (arm, i) => if arm.accepts v then some i else none

/-- Executes bodies in order until one leaves. -/
def runArms {m : Type → Type} [Monad m] (exec : β → m Flow) : List (Arm β) → m Unit
  | [] => pure ()
  | arm :: rest => do
      match ← exec arm.body with
      | .leave => pure ()
      | .next => runArms exec rest

/-- Executes the selected arm and those it falls through to, and returns its position. -/
def run {m : Type → Type} [Monad m] (s : Switch β) (v : Value) (exec : β → m Flow) :
    m (Option Nat) :=
  match s.resolve v with
  | none => pure none
  | some start => do
      runArms exec (s.arms.drop start)
      pure (some start)

end Switch

end ScriptCore
