import ScriptCore.Proofs.Cursor.Progress
import ScriptCore.Proofs.Host.Chain
import ScriptCore.Proofs.Machine.Locality

/-!
# Runs end with their code

The machine's loop has no bound of its own. It reads operation codes and operands with a
cursor over its code, and goes on after every instruction that neither returns nor fails.
Each turn takes at least the byte of its operation code, so the loop makes no more turns,
and starts no more instructions, than its code has bytes.

That bounds the turns, and not yet the run: a subscript of an alias that leads back to
itself is a turn that never ends. A run that comes to none of these ends, with a value or
an error, and nothing else keeps a run from ending.
-/

namespace ScriptCore

namespace Instruction

/-! ## Instructions read with a cursor -/

/-- Reads code with a cursor; a fault leaves the cursor where it was found. -/
abbrev Fetch := EStateM Fault Cursor

namespace Fetch

variable {α β : Type}

/-- Whatever makes a read fail, the code is too short for it. -/
def operand (op : Cursor.Operation) : Fetch op.Content := fun c =>
  match op.read c with
  | .ok a c' => .ok a c'
  | .error _ c' => .error .truncated c'

/-- What the bytes read so far stand for, if they stand for anything. -/
def found (a? : Option α) (f : Fault) : Fetch α :=
  match a? with
  | some a => pure a
  | none => throw f

def text : Fetch String := do
  let n ← operand .varint
  let content ← operand (.take n)
  found (String.fromUTF8? ⟨content.toArray⟩) .invalidText

def integer : Fetch Int64 := do
  return Int64.ofInt (← operand .signedVarint)

def operator : Fetch BinaryOperator := do
  found (BinaryOperator.ofCode? (← operand .byte)) .unknownOperator

/-- A host function's argument count and name. -/
def native : Fetch (UInt8 × String) := do
  let argc ← operand .byte
  return (argc, ← text)

/-- The operands of an operation code. -/
def operands (opcode : UInt8) : Fetch Instruction :=
  match opcode.toNat with
  | 0x00 => return .ret
  | 0x01 => return .null
  | 0x02 => return .arg (← operand .byte)
  | 0x03 => return .int (← integer)
  | 0x04 => return .str (← text)
  | 0x05 => return .loadGlobal (← operand .varint)
  | 0x06 => return .storeGlobal (← operand .varint)
  | 0x0d => return .addGlobal (← operand .varint)
  | 0x07 => return .binary (← operator)
  | 0x08 => return .equal
  | 0x09 => do
      let f ← native
      return .native f.2 f.1
  | 0x0a => return .pop
  | 0x0b => return .readIndex
  | 0x0c => return .writeIndex
  | _ => throw (.invalidOpcode opcode)

/-- What was read and the bytes after it. -/
def shown : EStateM.Result Fault Cursor α → Operand α
  | .ok a c => .ok (a, c.rest)
  | .error f _ => .error f

/-- Reading with a cursor shows what is read from the bytes before it. -/
def Shows (m : Fetch α) (read : List UInt8 → Operand α) : Prop :=
  ∀ c, shown (m c) = read c.rest

namespace Shows

variable {m : Fetch α} {read : List UInt8 → Operand α}

theorem pure (a : α) : Shows (pure a) fun bytes => .ok (a, bytes) :=
  fun _ => rfl

theorem found (a? : Option α) (f : Fault) : Shows (found a? f) (Operand.found a? f) := by
  intro c
  cases a? <;> rfl

theorem bind {k : α → Fetch β} {next : α → List UInt8 → Operand β} (h : Shows m read)
    (hk : ∀ a, Shows (k a) (next a)) :
    Shows (m >>= k) fun bytes => (read bytes).andThen next := by
  intro c
  dsimp only
  rw [← h c, bind_apply]
  cases m c with
  | ok a c' => exact hk a c'
  | error f c' => rfl

theorem map (f : α → β) (h : Shows m read) :
    Shows (do return f (← m)) fun bytes => (read bytes).map f := by
  simp only [Operand.map_eq_andThen]
  exact h.bind fun a => pure (f a)

end Shows

theorem byte_shows : Shows (operand .byte) Operand.byte := by
  rintro ⟨pos, rest⟩
  cases rest <;> rfl

theorem varint_shows : Shows (operand .varint) Operand.nat := by
  intro c
  simp only [operand, Cursor.Operation.read, Cursor.varint, Operand.nat]
  rcases Varint.decode c.rest with ⟨e | n, rest⟩ <;> rfl

theorem integer_shows : Shows integer Operand.int := by
  intro c
  simp only [integer, bind_apply, operand, Cursor.Operation.read, Cursor.signedVarint, Operand.int]
  rcases Varint.decodeInt c.rest with ⟨e | z, rest⟩ <;> rfl

theorem take_shows (n : Nat) : Shows (operand (.take n)) (Operand.piece n) := by
  intro c
  by_cases hlen : n ≤ c.rest.length
  · simp only [operand, Cursor.Operation.read, Cursor.take, Operand.piece, if_pos hlen, shown]
  · simp only [operand, Cursor.Operation.read, Cursor.take, Operand.piece, if_neg hlen, shown]

theorem text_shows : Shows text Operand.text := by
  rw [funext Operand.text_eq_andThen]
  exact varint_shows.bind fun n => (take_shows n).bind fun _ => .found _ _

theorem operator_shows : Shows operator Operand.operator := by
  rw [funext Operand.operator_eq_andThen]
  exact byte_shows.bind fun _ => .found _ _

theorem native_shows : Shows native Operand.native := by
  rw [funext Operand.native_eq_andThen]
  exact byte_shows.bind fun argc => text_shows.map (argc, ·)

/-- With a cursor the same instructions are read as from the bytes before it. -/
theorem operands_shows (opcode : UInt8) : Shows (operands opcode) (decode opcode) := by
  -- The cases left over have no operands.
  intro c
  unfold operands decode
  generalize opcode.toNat = code
  split
  case h_3 => exact byte_shows.map _ c
  case h_4 => exact integer_shows.map _ c
  case h_5 => exact text_shows.map _ c
  case h_6 => exact varint_shows.map _ c
  case h_7 => exact varint_shows.map _ c
  case h_8 => exact varint_shows.map _ c
  case h_9 => exact operator_shows.map _ c
  case h_11 => exact native_shows.map _ c
  -- What is no operation code here is none there either.
  case h_15 => split <;> trivial
  all_goals rfl

/-- The cursor is moved by reads alone. -/
def Reads (m : Fetch α) : Prop :=
  ∀ c, ∃ ops, stateAfter (m c) = Cursor.performAll ops c

namespace Reads

theorem pure (a : α) : Reads (pure a) :=
  fun _ => ⟨[], rfl⟩

theorem found (a? : Option α) (f : Fault) : Reads (found a? f) := by
  intro c
  cases a? with
  | some a => exact ⟨[], rfl⟩
  | none => exact ⟨[], rfl⟩

theorem operand (op : Cursor.Operation) : Reads (operand op) := by
  intro c
  refine ⟨[op], ?_⟩
  rw [Fetch.operand, Cursor.performAll_cons]
  cases op.read c with
  | ok a c' => rfl
  | error e c' => rfl

theorem bind {m : Fetch α} {k : α → Fetch β} (h : Reads m) (hk : ∀ a, Reads (k a)) :
    Reads (m >>= k) := by
  intro c
  obtain ⟨first, hfirst⟩ := h c
  rw [bind_apply]
  cases hm : m c with
  | ok a c' =>
      obtain ⟨second, hsecond⟩ := hk a c'
      refine ⟨first ++ second, ?_⟩
      rw [hm] at hfirst
      rw [Cursor.performAll_append, ← hfirst]
      exact hsecond
  | error f c' =>
      rw [hm] at hfirst
      exact ⟨first, hfirst⟩

end Reads

theorem text_reads : Reads text :=
  (Reads.operand _).bind fun _ => (Reads.operand _).bind fun _ => .found _ _

theorem operands_reads (opcode : UInt8) : Reads (operands opcode) := by
  unfold operands
  split
  case h_3 => exact (Reads.operand _).bind fun _ => .pure _
  case h_4 => exact ((Reads.operand _).bind fun _ => .pure _).bind fun _ => .pure _
  case h_5 => exact text_reads.bind fun _ => .pure _
  case h_6 => exact (Reads.operand _).bind fun _ => .pure _
  case h_7 => exact (Reads.operand _).bind fun _ => .pure _
  case h_8 => exact (Reads.operand _).bind fun _ => .pure _
  case h_9 => exact ((Reads.operand _).bind fun _ => .found _ _).bind fun _ => .pure _
  case h_11 =>
    exact ((Reads.operand _).bind fun _ => text_reads.bind fun _ => .pure _).bind fun _ => .pure _
  case h_15 => exact fun _ => ⟨[], rfl⟩
  all_goals exact .pure _

end Fetch

end Instruction

/-! ## Accesses that never end -/

/-- It is an error, or it is for lack of an end, and then `p` holds. -/
def Stop.Unless (p : Prop) : Stop → Prop
  | .raised _ => True
  | .endless => p
  | .exhausted => False

theorem Stop.Unless.mono {p q : Prop} {stop : Stop} (h : stop.Unless p) (hpq : p → q) :
    stop.Unless q := by
  cases stop with
  | raised e => trivial
  | endless => exact hpq h
  | exhausted => exact h

theorem Stop.unless_of_raising {α : Type} {r : Except ScriptError α} {stop : Stop}
    (hend : raising r = .error stop) (p : Prop) : stop.Unless p := by
  obtain ⟨e, -, rfl⟩ := raising_eq_error_iff.mp hend
  trivial

theorem Host.unless_of_follow {h : Host} {v : Value} {stop : Stop}
    (hend : h.follow v = .error stop) : stop.Unless (h.Circles v) := by
  by_cases hv : h.Circles v
  · obtain rfl := Except.error.inj ((follow_of_circles hv).symm.trans hend)
    exact hv
  · rcases follow_of_not_circles hv with ⟨passed, w, hok, -⟩ | hdangling
    · exact absurd (hok.symm.trans hend) (by simp)
    · obtain rfl := Except.error.inj (hdangling.symm.trans hend)
      trivial

namespace Access

variable {h : Host} {target key value : Value} {stop : Stop}

theorem readIndex_of_circles (hv : h.Circles target) :
    readIndex h target key = .error .endless := by
  rw [readIndex, Host.resolve, Host.follow_of_circles hv]
  rfl

theorem unless_of_readIndex (hend : readIndex h target key = .error stop) :
    stop.Unless (h.Circles target) := by
  rw [readIndex, Host.resolve] at hend
  cases hfollow : h.follow target with
  | ok reached =>
      rw [hfollow] at hend
      exact Stop.unless_of_raising hend _
  | error stop' =>
      rw [hfollow] at hend
      obtain rfl := Except.error.inj hend
      exact Host.unless_of_follow hfollow

theorem writeIndex_of_circles (hv : h.Circles target) :
    writeIndex key value ⟨target, h⟩ = .error .endless ⟨target, h⟩ := by
  obtain ⟨r, rfl⟩ := hv.exists_slot
  simp only [writeIndex, write, Host.follow_of_circles hv]

theorem unless_of_writeIndex {q : Place} (hend : writeIndex key value ⟨target, h⟩ = .error stop q) :
    stop.Unless (h.Circles target) := by
  unfold writeIndex write at hend
  split at hend
  · split at hend
    · rename_i hfollow
      obtain ⟨rfl, -⟩ := EStateM.Result.error.inj hend
      exact Host.unless_of_follow hfollow
    · split at hend
      · obtain ⟨rfl, -⟩ := EStateM.Result.error.inj hend
        trivial
      · contradiction
  · dsimp only at hend
    split at hend
    · obtain ⟨rfl, -⟩ := EStateM.Result.error.inj hend
      trivial
    · contradiction

end Access

namespace StackMachine

variable {φ : Type}

/-- The instruction subscripts an alias that leads back to itself. -/
def Circling (host : Host) (stack : List Value) : Instruction → Prop
  | .readIndex => ∃ key target rest, stack = key :: target :: rest ∧ host.Circles target
  | .writeIndex =>
      ∃ value key target rest, stack = value :: key :: target :: rest ∧ host.Circles target
  | _ => False

theorem effect_of_circling [NativeFunction φ] {world : World φ} {stack : List Value}
    {i : Instruction} (h : Circling world.host stack i) (width : Width) (args : List Value) :
    effect width args stack world i = .failure .endless world := by
  cases i with
  | readIndex =>
      obtain ⟨key, target, rest, rfl, hcircles⟩ := h
      simp only [effect, Access.readIndex_of_circles hcircles, Effect.pushing]
  | writeIndex =>
      obtain ⟨value, key, target, rest, rfl, hcircles⟩ := h
      simp only [effect, Access.writeIndex_of_circles hcircles]
  | _ => exact absurd h id

/-- Nothing but an alias that leads back to itself keeps an instruction from ending. -/
theorem FailsFor.unless_circling [NativeFunction φ] {width : Width} {stack : List Value}
    {world : World φ} {i : Instruction} {stop : Stop} (h : FailsFor width stack world i stop) :
    stop.Unless (Circling world.host stack i) := by
  cases h with
  | read operands error =>
      apply (Access.unless_of_readIndex error).mono
      exact fun hcircles => ⟨_, _, _, operands, hcircles⟩
  | write operands error =>
      apply (Access.unless_of_writeIndex error).mono
      exact fun hcircles => ⟨_, _, _, _, operands, hcircles⟩
  | _ => trivial

/-- The run comes to an instruction that subscripts an alias which leads back to itself. -/
def MeetsCircle [NativeFunction φ] (frame : Frame) (s : State φ) : Prop :=
  ∃ opcode bytes i rest t, Comes frame s (opcode :: bytes) t ∧
    Instruction.decode opcode bytes = .ok (i, rest) ∧ Circling t.world.host t.executor.stack i

theorem MeetsCircle.result_eq [NativeFunction φ] {frame : Frame} {s : State φ}
    (h : MeetsCircle frame s) : (outcome (run frame frame.code s)).result = .error .endless := by
  obtain ⟨opcode, bytes, i, rest, t, hcomes, hread, hcircling⟩ := h
  rw [← hcomes.run_eq, outcome_run_of_decode frame hread, effect_of_circling hcircling]

theorem unless_of_run [NativeFunction φ] {frame : Frame} {s : State φ} {stop : Stop}
    (hend : (outcome (run frame frame.code s)).result = .error stop) :
    stop.Unless (MeetsCircle frame s) := by
  have hrun : Comes frame s frame.code s → ∀ stop,
      (outcome (run frame frame.code s)).result = .error stop →
        stop.Unless (MeetsCircle frame s) := by
    refine run_induction frame (motive := fun code t r => Comes frame s code t →
      ∀ stop, (outcome r).result = .error stop → stop.Unless (MeetsCircle frame s))
      ?ended ?faulty ?result ?failure ?next frame.code s
    case ended =>
      rintro t - stop ⟨rfl⟩
      trivial
    case faulty =>
      rintro opcode bytes t f - - stop ⟨rfl⟩
      trivial
    case result => exact fun _ _ _ _ _ _ _ _ _ _ _ hstop => nomatch hstop
    case failure =>
      rintro opcode bytes t i rest stop t' hread hdone hcomes _ ⟨rfl⟩
      apply (failsFor_of_execute hdone).unless_circling.mono
      exact fun hcircling => ⟨opcode, bytes, i, rest, t, hcomes, hread, hcircling⟩
    case next =>
      intro opcode bytes t i rest t' r hread hdone hrest hcomes
      exact hrest (hcomes.turn hread hdone)
  exact hrun .start stop hend

/-! ## The loop -/

/-- What a turn of the loop comes to. The last one may be one that never ends. -/
inductive Turn (φ : Type) where
  | ends (result : EStateM.Result Stop (State φ) Value)
  | next (reader : Cursor) (s : State φ)

/-- One turn of the loop: an operation code is read and counted, then its operands are read,
then the instruction is executed. -/
def turn [NativeFunction φ] (frame : Frame) (reader : Cursor) (s : State φ) : Turn φ :=
  match Cursor.byte reader with
  | .error _ _ => .ends (.error (fault .truncated) s)
  | .ok opcode reader =>
      match Instruction.Fetch.operands opcode reader with
      | .error f _ => .ends (.error (fault f) (tick s))
      | .ok instruction reader =>
          match execute frame instruction (tick s) with
          | .error e s' => .ends (.error e s')
          | .ok (some v) s' => .ends (.ok v s')
          | .ok none s' => .next reader s'

/-- Turn after turn, the loop ends with `result` after `n` turns that did not end it. -/
inductive Ends [NativeFunction φ] (frame : Frame) :
    Nat → Cursor → State φ → EStateM.Result Stop (State φ) Value → Prop
  | last {reader : Cursor} {s : State φ} {result : EStateM.Result Stop (State φ) Value}
      (h : turn frame reader s = .ends result) : Ends frame 0 reader s result
  | more {n : Nat} {reader reader' : Cursor} {s s' : State φ}
      {result : EStateM.Result Stop (State φ) Value}
      (h : turn frame reader s = .next reader' s') (later : Ends frame n reader' s' result) :
      Ends frame (n + 1) reader s result

/-- How a turn can turn out, by what the code before the reader is. -/
inductive TurnsOut [NativeFunction φ] (frame : Frame) (reader : Cursor) (s : State φ) :
    Turn φ → Prop
  | ended (code : reader.rest = []) :
      TurnsOut frame reader s (.ends (.error (fault .truncated) s))
  | faulty {opcode : UInt8} {bytes : List UInt8} {f : Fault} (code : reader.rest = opcode :: bytes)
      (read : Instruction.decode opcode bytes = .error f) :
      TurnsOut frame reader s (.ends (.error (fault f) (tick s)))
  | failure {opcode : UInt8} {bytes rest : List UInt8} {i : Instruction} {e : Stop}
      {s' : State φ} (code : reader.rest = opcode :: bytes)
      (read : Instruction.decode opcode bytes = .ok (i, rest))
      (done : execute frame i (tick s) = .error e s') :
      TurnsOut frame reader s (.ends (.error e s'))
  | result {opcode : UInt8} {bytes rest : List UInt8} {i : Instruction} {v : Value}
      {s' : State φ} (code : reader.rest = opcode :: bytes)
      (read : Instruction.decode opcode bytes = .ok (i, rest))
      (done : execute frame i (tick s) = .ok (some v) s') :
      TurnsOut frame reader s (.ends (.ok v s'))
  | next {opcode : UInt8} {bytes : List UInt8} {reader' : Cursor} {i : Instruction}
      {s' : State φ} (code : reader.rest = opcode :: bytes)
      (read : Instruction.decode opcode bytes = .ok (i, reader'.rest))
      (moved : ∃ ops, reader' = Cursor.performAll ops (reader.skip 1))
      (done : execute frame i (tick s) = .ok none s') :
      TurnsOut frame reader s (.next reader' s')

theorem turnsOut_of_turn [NativeFunction φ] {frame : Frame} {reader : Cursor} {s : State φ}
    {t : Turn φ} (h : turn frame reader s = t) : TurnsOut frame reader s t := by
  subst h
  obtain ⟨pos, code⟩ := reader
  cases code with
  | nil => exact .ended rfl
  | cons opcode bytes =>
      have hread := Instruction.Fetch.operands_shows opcode ⟨pos + 1, bytes⟩
      have hmoved := Instruction.Fetch.operands_reads opcode ⟨pos + 1, bytes⟩
      simp only [turn, Cursor.byte]
      cases hfetch : Instruction.Fetch.operands opcode ⟨pos + 1, bytes⟩ with
      | error f reader' =>
          rw [hfetch] at hread
          exact .faulty rfl hread.symm
      | ok i reader' =>
          rw [hfetch] at hread hmoved
          dsimp only
          split
          · rename_i hdone
            exact .failure rfl hread.symm hdone
          · rename_i hdone
            exact .result rfl hread.symm hdone
          · rename_i hdone
            exact .next rfl hread.symm hmoved hdone

/-- A turn that does not end the loop has read an operation code at least. -/
theorem TurnsOut.length_rest_lt [NativeFunction φ] {frame : Frame} {reader reader' : Cursor}
    {s s' : State φ} (h : TurnsOut frame reader s (.next reader' s')) :
    reader'.rest.length < reader.rest.length := by
  cases h with
  | @next opcode bytes _ _ _ code read moved done =>
      obtain ⟨ops, rfl⟩ := moved
      have hmoved := Cursor.length_rest_performAll_le ops (reader.skip 1)
      have hskip : (reader.skip 1).rest.length = reader.rest.length - 1 := List.length_drop
      have hcode : reader.rest.length = bytes.length + 1 := by rw [code, List.length_cons]
      omega

/-- From wherever it stands the loop ends, after no more turns than there are bytes. -/
theorem exists_ends [NativeFunction φ] (frame : Frame) (reader : Cursor) (s : State φ) :
    ∃ n result, n ≤ reader.rest.length ∧ Ends frame n reader s result := by
  -- Nothing but the bytes left to read bounds the loop, whatever the instructions do.
  induction hlength : reader.rest.length using Nat.strongRecOn generalizing reader s with
  | ind length ih =>
      cases hturn : turn frame reader s with
      | ends result => exact ⟨0, result, Nat.zero_le _, .last hturn⟩
      | next reader' s' =>
          have hless := (turnsOut_of_turn hturn).length_rest_lt
          obtain ⟨n, result, hn, hends⟩ := ih _ (by omega) reader' s' rfl
          exact ⟨n + 1, result, by omega, .more hturn hends⟩

/-- The loop ends as the run of the code before its reader does. -/
theorem Ends.run_eq [NativeFunction φ] {frame : Frame} {n : Nat} {reader : Cursor} {s : State φ}
    {result : EStateM.Result Stop (State φ) Value} (h : Ends frame n reader s result) :
    run frame reader.rest s = result := by
  induction h with
  | last h =>
      cases turnsOut_of_turn h with
      | ended code => rw [code, run]
      | faulty code read => rw [code, run_of_fault frame read]
      | failure code read done => rw [code, run_of_decode frame read, done]
      | result code read done => rw [code, run_of_decode frame read, done]
  | more h later ih =>
      cases turnsOut_of_turn h with
      | next code read moved done =>
          rw [code, run_of_decode frame read, done]
          exact ih

/-- Executing an instruction does not count it. -/
theorem steps_execute [NativeFunction φ] (frame : Frame) (i : Instruction) (s : State φ) :
    (stateAfter (execute frame i s)).executor.steps = s.executor.steps := by
  have hobserve := congrArg Prod.snd (observe_execute frame i s)
  rcases hexecute : execute frame i s with ⟨_ | v, s'⟩ | ⟨e, s'⟩ <;>
  · rw [hexecute] at hobserve
    exact hobserve

def Turn.state : Turn φ → State φ
  | .ends result => stateAfter result
  | .next _ s => s

/-- A turn counts one instruction, unless there is no code left. -/
theorem TurnsOut.steps_eq [NativeFunction φ] {frame : Frame} {reader : Cursor} {s : State φ}
    {t : Turn φ} (h : TurnsOut frame reader s t) :
    t.state.executor.steps = s.executor.steps + min 1 reader.rest.length := by
  have hexecuted : ∀ i, (stateAfter (execute frame i (tick s))).executor.steps =
      s.executor.steps + 1 := fun i => steps_execute frame i (tick s)
  have hone : ∀ {opcode bytes}, reader.rest = opcode :: bytes → min 1 reader.rest.length = 1 := by
    intro opcode bytes code
    rw [code, List.length_cons]
    omega
  cases h with
  | ended code =>
      rw [code]
      rfl
  | faulty code read =>
      rw [hone code]
      rfl
  | @failure _ _ _ i _ _ code read done =>
      rw [hone code, ← hexecuted i, done]
      rfl
  | @result _ _ _ i _ _ code read done =>
      rw [hone code, ← hexecuted i, done]
      rfl
  | @next _ _ _ i _ code read moved done =>
      rw [hone code, ← hexecuted i, done]
      rfl

/-- No more instructions are started than there are bytes. -/
theorem Ends.steps_le [NativeFunction φ] {frame : Frame} {n : Nat} {reader : Cursor}
    {s : State φ} {result : EStateM.Result Stop (State φ) Value}
    (h : Ends frame n reader s result) :
    s.executor.steps ≤ (stateAfter result).executor.steps ∧
      (stateAfter result).executor.steps ≤ s.executor.steps + reader.rest.length := by
  induction h with
  | @last reader s result h =>
      have hsteps : (stateAfter result).executor.steps = _ := (turnsOut_of_turn h).steps_eq
      omega
  | @more n reader reader' s s' result h later ih =>
      have hsteps : s'.executor.steps = _ := (turnsOut_of_turn h).steps_eq
      have hless := (turnsOut_of_turn h).length_rest_lt
      omega

/-- What a call leaves on the stack is no part of the count. -/
theorem steps_executor [NativeFunction φ] (frame : Frame) (s : State φ) :
    (stateAfter (executor frame s)).executor.steps =
      (stateAfter (run frame frame.code s)).executor.steps := by
  rw [executor]
  cases run frame frame.code s <;> rfl

/-- What bounds the run of a call. -/
structure Bounded [NativeFunction φ] (frame : Frame) (s : State φ) : Prop where
  /-- The loop makes no more turns than the code has bytes before its last one, which leaves
  what the run leaves. -/
  turns : ∃ n, n ≤ frame.code.length ∧ Ends frame n (.ofBytes frame.code) s (run frame frame.code s)
  /-- The call counts no more instructions than the code has bytes. -/
  counts : s.executor.steps ≤ (stateAfter (executor frame s)).executor.steps ∧
    (stateAfter (executor frame s)).executor.steps ≤ s.executor.steps + frame.code.length
  /-- It ends, with a value or an error, unless it comes to an alias that leads back to itself. -/
  ends : ¬ MeetsCircle frame s → hasResult (outcome (executor frame s)).result = true
  /-- At such an alias it never ends. -/
  endless_iff : (outcome (executor frame s)).result = .error .endless ↔ MeetsCircle frame s

/-- Reads and runs are bounded by the bytes they are made on. Whatever is read, and however
often that fails, the cursor stays within the bytes and never goes back; a read that fails
leaves it where it was, or at most ten bytes on when it is a varint. A call makes no more
turns and counts no more instructions than its code has bytes, and it ends exactly when it
subscripts no alias that leads back to itself. -/
theorem calls_end_within_code_unless_alias_circles [NativeFunction φ] :
    (∀ bytes earlier, Cursor.Confined bytes (Cursor.performAll earlier (.ofBytes bytes))) ∧
      ∀ (frame : Frame) (s : State φ), Bounded frame s := by
  refine ⟨Cursor.confined_performAll, fun frame s => ?_⟩
  obtain ⟨n, result, hn, hends⟩ := exists_ends frame (.ofBytes frame.code) s
  have hrun : run frame frame.code s = result := hends.run_eq
  constructor
  case turns =>
    rw [hrun]
    exact ⟨n, hn, hends⟩
  case counts =>
    rw [steps_executor, hrun]
    exact hends.steps_le
  case ends =>
    intro hfree
    rw [outcome_executor]
    cases hresult : (outcome (run frame frame.code s)).result with
    | ok v => rfl
    | error stop =>
        have hunless := unless_of_run hresult
        cases stop with
        | raised e => rfl
        | endless => exact absurd hunless hfree
        | exhausted => exact absurd hunless id
  case endless_iff =>
    rw [outcome_executor]
    exact ⟨unless_of_run, MeetsCircle.result_eq⟩

/-- A host value holds its own alias, and the code of a call subscripts it. -/
theorem call_on_self_alias_never_ends :
    let host : Host := ⟨[], [⟨.native (.slot ⟨0⟩), 1⟩], []⟩
    let frame : Frame :=
      ⟨⟨.ofName "main", 0, 1⟩, [0x02, 0x00, 0x01, 0x0b, 0x00], [.native (.slot ⟨0⟩)], .w64⟩
    (outcome (executor frame (⟨.empty, [], Registry.empty, host⟩ : State Stock))).result =
      .error .endless := by
  intro host frame
  have hcircles : host.Circles (.native (.slot ⟨0⟩)) :=
    ⟨⟨0⟩, [], [⟨0⟩], .here, List.cons_ne_nil _ _, .pass rfl .here⟩
  rw [outcome_executor]
  apply MeetsCircle.result_eq
  -- The alias and a null are on the stack when the subscript is read.
  refine ⟨0x0b, [0x00], .readIndex, [0x00], _, .turn (.turn .start rfl rfl) rfl rfl, rfl, ?_⟩
  exact ⟨.null, .native (.slot ⟨0⟩), [], rfl, hcircles⟩

end StackMachine

end ScriptCore
