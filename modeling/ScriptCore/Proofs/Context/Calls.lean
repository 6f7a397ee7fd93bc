import Mathlib.Data.List.Nodup
import ScriptCore.Proofs.Image.Format
import ScriptCore.Proofs.Machine.Turns

/-!
# Calls in a loaded context

Calls and global writes change the globals of a context, but not their number and nothing
else of it. What was checked when the image was read therefore holds at every call: a hash
names at most one unit, and every unit's code lies within the image. So a call either
fails before its code is run, or runs the code of the one unit that it names.
-/

namespace ScriptCore

/-! ## Globals in place -/

/-- The executor may change every global, but not how many there are. -/
def Executor.InPlace {σ φ : Type} (execute : Executor σ φ) : Prop :=
  ∀ frame s, (stateAfter (execute frame s)).world.globals.length = s.world.globals.length

/-- The host functions may change every global, but not how many there are. -/
class NativeFunction.InPlace (φ : Type) [NativeFunction φ] : Prop where
  length_globals (width : Width) (args : List Value) (s : NativeScope φ) :
    (stateAfter (NativeFunction.call width args s)).globals.length = s.globals.length

instance : NativeFunction.InPlace Stock where
  length_globals width args s := by
    change (stateAfter (Stock.call width args s)).globals.length = s.globals.length
    rw [Stock.call]
    split
    case h_1 => split <;> rfl
    case h_8 =>
      split
      · rfl
      · rename_i v rest hglobals
        rw [hglobals]
        rfl
    all_goals rfl

namespace World

variable {φ : Type} [NativeFunction φ]

theorem length_globals_callNative [NativeFunction.InPlace φ] (width : Width) (name : String)
    (args : List Value) (world : World φ) :
    (stateAfter (world.callNative width name args)).globals.length = world.globals.length := by
  rcases stateAfter_callNative width name args world with hsame | ⟨f, hcalled⟩
  · rw [hsame]
  · rw [hcalled]
    exact NativeFunction.InPlace.length_globals width args ⟨f, world.globals, world.host⟩

end World

theorem StackMachine.executor_inPlace {φ : Type} [NativeFunction φ] [NativeFunction.InPlace φ] :
    (executor : Executor StackMachine φ).InPlace := by
  intro frame s
  have hrun : (stateAfter (run frame frame.code s)).world.globals.length =
      s.world.globals.length := by
    refine run_respects frame
      (R := fun world world' => world'.globals.length = world.globals.length)
      (fun world => rfl) (fun hab hbc => hbc.trans hab) ?_ frame.code s
    intro stack world i world' hchange
    cases hchange with
    | nothing => rfl
    | global i slot v => exact List.length_set
    | native name argc => exact World.length_globals_callNative _ name _ world
    | write operands => rfl
  rw [world_executor]
  exact hrun

/-! ## What reading has checked -/

namespace Image

variable {limits : Limits} {bytes : List UInt8} {image : Image}

theorem codeEnd_of_read (h : read limits bytes = .ok image) : image.codeEnd = bytes.length := by
  obtain ⟨f, rfl, -, rfl⟩ := read_eq_ok_iff.mp h
  rfl

theorem offset_le_of_read (h : read limits bytes = .ok image) {u : UnitEntry}
    (hu : u ∈ image.units) : u.offset ≤ bytes.length := by
  obtain ⟨f, rfl, hf, rfl⟩ := read_eq_ok_iff.mp h
  obtain ⟨e, he, rfl⟩ := List.mem_map.mp hu
  exact (hf.inside e he).2.1

/-- No two units of an image have the same hash. -/
theorem unit_unique_of_read (h : read limits bytes = .ok image) {u v : UnitEntry}
    (hu : u ∈ image.units) (hv : v ∈ image.units) (hhash : u.hash = v.hash) : u = v := by
  obtain ⟨f, rfl, hf, rfl⟩ := read_eq_ok_iff.mp h
  obtain ⟨e, he, rfl⟩ := List.mem_map.mp hu
  obtain ⟨d, hd, rfl⟩ := List.mem_map.mp hv
  rw [List.inj_on_of_nodup_map hf.distinct he hd hhash]

end Image

namespace Context

/-! ## The life of a context -/

/-- What a context can become while it is used: units of it are called, by whatever
executor and in whatever surroundings, its globals are written and its bytes are made its
own. -/
inductive Becomes (c : Context) : Context → Prop
  | unused : Becomes c c
  | call {σ φ : Type} {d : Context} (before : Becomes c d) (execute : Executor σ φ)
      (inPlace : execute.InPlace) (hash : UnitHash) (args : List Value) (executor : σ)
      (registry : Registry φ) (host : Host) :
      Becomes c (stateAfter (call execute hash args ⟨d, executor, registry, host⟩)).context
  | callReference {σ φ : Type} {d : Context} (before : Becomes c d) (execute : Executor σ φ)
      (inPlace : execute.InPlace) (target : Value) (args : List Value) (executor : σ)
      (registry : Registry φ) (host : Host) :
      Becomes c
        (stateAfter (callReference execute target args ⟨d, executor, registry, host⟩)).context
  | setGlobal {d : Context} (before : Becomes c d) (slot : Nat) (v : Value) :
      Becomes c { d with globals := d.globals.set slot v }
  | own {d : Context} (before : Becomes c d) : Becomes c d.own

/-- The context differs at most in what its globals hold and in who owns its bytes. -/
def Resembles (c d : Context) : Prop :=
  ∃ borrowed globals, globals.length = d.globals.length ∧ c = { d with borrowed, globals }

theorem Resembles.refl (c : Context) : c.Resembles c :=
  ⟨c.borrowed, c.globals, rfl, rfl⟩

theorem Resembles.trans {c d e : Context} (h : c.Resembles d) (h' : d.Resembles e) :
    c.Resembles e := by
  obtain ⟨borrowed, globals, hlength, rfl⟩ := h
  obtain ⟨borrowed', globals', hlength', rfl⟩ := h'
  exact ⟨borrowed, globals, hlength.trans hlength', rfl⟩

section

variable {σ φ : Type} {execute : Executor σ φ}

/-- What a call can leave behind: all as it was, or what the executor has made of it. -/
inductive After (execute : Executor σ φ) (s : CallSite σ φ) : CallSite σ φ → Prop
  | refused : After execute s s
  | ran (frame : Frame) : After execute s (leave s (stateAfter (execute frame (enter s))))

theorem after_call (execute : Executor σ φ) (hash : UnitHash) (args : List Value)
    (s : CallSite σ φ) : After execute s (stateAfter (call execute hash args s)) := by
  rw [call]
  split
  · exact .refused
  · rename_i u hu
    dsimp only
    split
    · exact .refused
    · have hran : After execute s _ := .ran (s.context.frame u args)
      split <;>
      · rename_i hend
        rw [hend] at hran
        exact hran

theorem after_callReference (execute : Executor σ φ) (target : Value) (args : List Value)
    (s : CallSite σ φ) : After execute s (stateAfter (callReference execute target args s)) := by
  cases target with
  | unit ref =>
      rw [callReference]
      split
      · exact after_call execute ref.hash args s
      · exact .refused
  | _ => exact .refused

theorem After.resembles {s t : CallSite σ φ} (h : After execute s t) (hexecute : execute.InPlace) :
    t.context.Resembles s.context := by
  cases h with
  | refused => exact .refl _
  | ran frame => exact ⟨_, _, hexecute frame (enter s), rfl⟩

end

theorem Becomes.resembles {c d : Context} (h : c.Becomes d) : d.Resembles c := by
  induction h with
  | unused => exact .refl c
  | call before execute inPlace hash args executor registry host ih =>
      exact ((after_call execute hash args _).resembles inPlace).trans ih
  | callReference before execute inPlace target args executor registry host ih =>
      exact ((after_callReference execute target args _).resembles inPlace).trans ih
  | @setGlobal d before slot v ih =>
      have hset : Resembles { d with globals := d.globals.set slot v } d :=
        ⟨d.borrowed, _, List.length_set, rfl⟩
      exact hset.trans ih
  | @own d before ih =>
      have hown : d.own.Resembles d := ⟨false, d.globals, rfl, rfl⟩
      exact hown.trans ih

/-! ## What calls do -/

variable {id : ContextId} {borrowed : Bool} {config : Config} {bytes : List UInt8}
  {memory : Memory} {loaded c : Context}

/-- The context serves the image that `bytes` spell, at the settings of `config`. -/
structure Serves (config : Config) (bytes : List UInt8) (image : Image) (c : Context) :
    Prop where
  globals : c.globals.length = image.globals
  units : c.units = image.units
  /-- A hash finds the unit of that hash, -/
  unit_iff : ∀ hash u, c.unit hash = .ok u ↔ u ∈ c.units ∧ u.hash = hash
  /-- of which there is only one. -/
  unique : ∀ u ∈ c.units, ∀ v ∈ c.units, u.hash = v.hash → u = v
  /-- The code ends with the image, and every unit starts at or before that end. -/
  codeEnd : c.codeEnd = bytes.length
  inside : ∀ u ∈ c.units, u.offset ≤ c.codeEnd
  /-- A call of an unknown unit fails as it was found, whatever the executor. -/
  unknown : ∀ {σ φ : Type} (execute : Executor σ φ) (hash : UnitHash) (args : List Value)
    (s : CallSite σ φ), s.context = c → (∀ u ∈ c.units, u.hash ≠ hash) →
    call execute hash args s = .error (.raised (.unknownUnit hash)) s
  /-- So does a call of a unit with more arguments than the limit. -/
  tooMany : ∀ {σ φ : Type} (execute : Executor σ φ) (u : UnitEntry) (args : List Value)
    (s : CallSite σ φ), s.context = c → u ∈ c.units → config.limits.args < args.length →
    call execute u.hash args s =
      .error (ScriptError.positionOutOfRange args.length config.limits.args) s
  /-- Any other call is one run of the executor: on the unit, the bytes of the image from
  the unit's start on, and the arguments with nulls up to the parameter count. -/
  runs : ∀ {σ φ : Type} (execute : Executor σ φ) (u : UnitEntry) (args : List Value)
    (s : CallSite σ φ), s.context = c → u ∈ c.units → args.length ≤ config.limits.args →
    call execute u.hash args s =
      mapState (leave s)
        (execute
          { unit := u
            code := bytes.drop u.offset
            args := args ++ List.replicate (u.params.toNat - args.length) .null
            width := config.width }
          (enter s))

theorem unit_eq_ok_iff {hash : UnitHash} {u : UnitEntry}
    (hunique : ∀ u ∈ c.units, ∀ v ∈ c.units, u.hash = v.hash → u = v) :
    c.unit hash = .ok u ↔ u ∈ c.units ∧ u.hash = hash := by
  rw [unit, unit?]
  cases hfind : c.units.find? (·.hash = hash) with
  | none =>
      have hnone := List.find?_eq_none.mp hfind
      simp only [reduceCtorEq, false_iff]
      rintro ⟨hu, hhash⟩
      exact hnone u hu (decide_eq_true hhash)
  | some v =>
      have hv : v ∈ c.units := List.mem_of_find?_eq_some hfind
      have hhash : v.hash = hash := by
        simpa only [decide_eq_true_eq] using List.find?_some hfind
      simp only [Except.ok.injEq]
      constructor
      · rintro rfl
        exact ⟨hv, hhash⟩
      · rintro ⟨hu, hu'⟩
        exact hunique v hv u hu (hhash.trans hu'.symm)

theorem unit_eq_error {hash : UnitHash} (h : ∀ u ∈ c.units, u.hash ≠ hash) :
    c.unit hash = .error (.unknownUnit hash) := by
  have hfind : c.units.find? (·.hash = hash) = none :=
    List.find?_eq_none.mpr fun u hu hhash => h u hu (of_decide_eq_true hhash)
  rw [unit, unit?, hfind]

/-- A context as it was loaded and used has the units, the code and the settings that were
read, and as many globals. -/
theorem exists_read_of_becomes (hload : load id borrowed config bytes memory = .ok loaded)
    (hlater : loaded.Becomes c) :
    ∃ image, Image.read config.limits bytes = .ok image ∧
      c.globals.length = image.globals ∧ c.units = image.units ∧ c.codeEnd = image.codeEnd ∧
      c.image = bytes ∧ c.config = config := by
  obtain ⟨image, hread, -, rfl⟩ := load_eq_ok_iff.mp hload
  obtain ⟨borrowed', globals, hlength, rfl⟩ := hlater.resembles
  refine ⟨image, (Image.load_eq_ok_iff.mp hread).2, ?_, rfl, rfl, rfl, rfl⟩
  rw [hlength, ofImage, List.length_replicate]

/-- However a loaded context has been used, it serves the image that it was loaded from. -/
theorem loaded_context_serves_image (hload : load id borrowed config bytes memory = .ok loaded)
    (hlater : loaded.Becomes c) :
    ∃ image, Image.read config.limits bytes = .ok image ∧ c.Serves config bytes image := by
  obtain ⟨image, hread, hglobals, hunits, hend, himage, hconfig⟩ :=
    exists_read_of_becomes hload hlater
  have hcodeEnd : c.codeEnd = bytes.length := hend.trans (Image.codeEnd_of_read hread)
  have hunique : ∀ u ∈ c.units, ∀ v ∈ c.units, u.hash = v.hash → u = v := by
    rw [hunits]
    exact fun u hu v hv => Image.unit_unique_of_read hread hu hv
  have hfound : ∀ u ∈ c.units, c.unit u.hash = .ok u :=
    fun u hu => (unit_eq_ok_iff hunique).mpr ⟨hu, rfl⟩
  refine ⟨image, hread, hglobals, hunits, fun hash u => unit_eq_ok_iff hunique, hunique,
    hcodeEnd, ?inside, ?unknown, ?tooMany, ?runs⟩
  case inside =>
    intro u hu
    rw [hcodeEnd]
    exact Image.offset_le_of_read hread (hunits ▸ hu)
  case unknown =>
    intro σ φ execute hash args s hs hnone
    rw [call, hs, unit_eq_error hnone]
  case tooMany =>
    intro σ φ execute u args s hs hu hargs
    rw [call, hs, hfound u hu]
    dsimp only
    rw [hconfig, if_pos hargs]
  case runs =>
    intro σ φ execute u args s hs hu hargs
    have hframe : c.frame u args =
        { unit := u
          code := bytes.drop u.offset
          args := args ++ List.replicate (u.params.toNat - args.length) .null
          width := config.width } := by
      rw [frame, codeFrom, himage, hcodeEnd, List.take_length, hconfig]
    rw [call, hs, hfound u hu]
    dsimp only
    rw [hframe, hconfig, if_neg (Nat.not_lt.mpr hargs)]
    split
    · rename_i hrun
      rw [hrun]
      rfl
    · rename_i hrun
      rw [hrun]
      rfl

/-- One unit stores to the global, and the other starts where the code ends. The first has
been called and the global written over when the context is looked at. -/
theorem context_with_unit_at_end_serves_image :
    let bytes : List UInt8 :=
      [0x53, 0x54, 0x52, 0x44, 1, 0, 1, 2,
        1, 0, 0, 0, 0, 0, 0, 0, 29, 0, 2, 0, 0, 0, 0, 0, 0, 0, 34, 2,
        5, 0x03, 5, 0x06, 0, 0x00]
    ∃ loaded c, load ⟨1⟩ true {} bytes = .ok loaded ∧ loaded.Becomes c ∧
      loaded.units = [⟨⟨1⟩, 29, 0⟩, ⟨⟨2⟩, 34, 2⟩] ∧
      ∃ image, Image.read {} bytes = .ok image ∧ c.Serves {} bytes image := by
  intro bytes
  let loaded : Context :=
    { id := ⟨1⟩, borrowed := true, image := bytes
      units := [⟨⟨1⟩, 29, 0⟩, ⟨⟨2⟩, 34, 2⟩], codeEnd := 34, globals := [.null], config := {} }
  have hload : load ⟨1⟩ true {} bytes = .ok loaded := rfl
  have hcalled := (Becomes.unused : loaded.Becomes loaded).call
    (StackMachine.executor : Executor StackMachine Stock) StackMachine.executor_inPlace ⟨1⟩ []
    .empty .empty .empty
  have hwritten := hcalled.setGlobal 0 (.str "written")
  exact ⟨loaded, _, hload, hwritten, rfl, loaded_context_serves_image hload hwritten⟩

end Context

end ScriptCore
