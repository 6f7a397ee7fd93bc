import ScriptCore.Proofs.Context.Calls
import ScriptCore.Proofs.Host.Ownership
import ScriptCore.Session

/-!
# What a step of a session can do

Most commands change variables and the content of host storage, and no more. The others make
storage, share it or give it up, change the known functions, or change a context. Each command
is one such move, together with the context that it loads and the elements that it writes.
-/

namespace ScriptCore

/-! ## Content of host storage -/

/-- The content of the storage may have changed, of buffers as the writes of elements say, but
not what storage there is and who owns it. -/
structure Host.Updates (h : Host) (log : List ElementWrite) (h' : Host) : Prop where
  ledger : h'.ledger = h.ledger
  replays : h.Replays log h'

namespace Host.Updates

variable {h h' h'' : Host} {log : List ElementWrite}

theorem refl (h : Host) : h.Updates [] h :=
  ⟨rfl, replays_of_buffers_eq rfl⟩

theorem append {later : List ElementWrite} (hfirst : h.Updates log h')
    (hsecond : h'.Updates later h'') : h.Updates (log ++ later) h'' :=
  ⟨hsecond.ledger.trans hfirst.ledger, hfirst.replays.append hsecond.replays⟩

end Host.Updates

namespace Host

theorem updates_setSlot (h : Host) (r : SlotRef) (v : Value) : h.Updates [] (h.setSlot r v) :=
  ⟨ledger_setSlot r v, replays_of_buffers_eq rfl⟩

theorem updates_attach (h : Host) (r : RecordRef) (name : String) (field : Field) :
    h.Updates [] (h.attach r name field) :=
  ⟨ledger_attach r name field, replays_of_buffers_eq rfl⟩

end Host

namespace Access

theorem updates_writeIndex (key value : Value) (p : Place) :
    p.host.Updates (elementWrites p key value) (stateAfter (writeIndex key value p)).host :=
  ⟨ledger_writeIndex key value p, replays_writeIndex key value p⟩

theorem updates_writeField (name : String) (value : Value) (p : Place) :
    p.host.Updates [] (stateAfter (writeField name value p)).host :=
  ⟨ledger_writeField name value p, replays_writeField name value p⟩

end Access

/-- Whether an image can be loaded does not depend on the number of the context. -/
theorem Context.exists_load {id : ContextId} {borrowed : Bool} {config : Config}
    {bytes : List UInt8} {c : Context} (other : ContextId)
    (h : load id borrowed config bytes = .ok c) :
    ∃ c', load other borrowed config bytes = .ok c' := by
  obtain ⟨image, hread, hroom, -⟩ := load_eq_ok_iff.mp h
  exact ⟨_, load_eq_ok_iff.mpr ⟨image, hread, hroom, rfl⟩⟩

/-! ## Calls -/

/-- The writes of elements in what an engine runs. -/
def Engine.writes (frame : Frame) (s : StackMachine.State Stock) : Engine → List ElementWrite
  | .machine => StackMachine.writes frame frame.code s
  | .probe => []

namespace Engine

theorem updates_executor (engine : Engine) (frame : Frame) (s : StackMachine.State Stock) :
    s.world.host.Updates (engine.writes frame s)
      (stateAfter (engine.executor frame s)).world.host := by
  cases engine with
  | machine =>
      refine ⟨StackMachine.ledger_executor frame s, ?_⟩
      have hrun := StackMachine.replays_run frame frame.code s
      rw [← StackMachine.world_executor] at hrun
      exact hrun
  | probe => exact .refl _

theorem executor_inPlace (engine : Engine) : engine.executor.InPlace := by
  cases engine with
  | machine => exact StackMachine.executor_inPlace
  | probe => exact fun _ _ => rfl

end Engine

namespace Context

/-- The writes of elements in a call of a unit. -/
def callWrites (engine : Engine) (hash : UnitHash) (args : List Value)
    (site : CallSite StackMachine Stock) : List ElementWrite :=
  match site.context.unit hash with
  | .error _ => []
  | .ok u =>
      if site.context.config.limits.args < args.length then []
      else engine.writes (site.context.frame u args) (enter site)

/-- The writes of elements in a call of what a reference names. -/
def callReferenceWrites (engine : Engine) (target : Value) (args : List Value)
    (site : CallSite StackMachine Stock) : List ElementWrite :=
  match target with
  | .unit ref =>
      if ref.context = site.context.id then callWrites engine ref.hash args site else []
  | _ => []

theorem updates_call (engine : Engine) (hash : UnitHash) (args : List Value)
    (site : CallSite StackMachine Stock) :
    site.host.Updates (callWrites engine hash args site)
      (stateAfter (call engine.executor hash args site)).host := by
  rw [call, callWrites]
  cases site.context.unit hash with
  | error e => exact .refl _
  | ok u =>
      dsimp only
      by_cases hmost : site.context.config.limits.args < args.length
      · rw [if_pos hmost, if_pos hmost]
        exact .refl _
      · rw [if_neg hmost, if_neg hmost]
        have hexecute := engine.updates_executor (site.context.frame u args) (enter site)
        cases hend : engine.executor (site.context.frame u args) (enter site) <;>
        · rw [hend] at hexecute
          exact hexecute

theorem updates_callReference (engine : Engine) (target : Value) (args : List Value)
    (site : CallSite StackMachine Stock) :
    site.host.Updates (callReferenceWrites engine target args site)
      (stateAfter (callReference engine.executor target args site)).host := by
  cases target with
  | unit ref =>
      dsimp only [callReference, callReferenceWrites]
      split
      · exact updates_call engine ref.hash args site
      · exact .refl _
  | _ => exact .refl _

end Context

/-! ## Actions on content -/

namespace Session

/-- Variables and the content of host storage may have changed, and nothing else. -/
def Rewrites (s : Session) (log : List ElementWrite) (s' : Session) : Prop :=
  ∃ vars host, s.host.Updates log host ∧ s' = { s with vars, host }

theorem Rewrites.refl (s : Session) : s.Rewrites [] s :=
  ⟨s.vars, s.host, .refl s.host, rfl⟩

theorem Rewrites.append {s s' s'' : Session} {log later : List ElementWrite}
    (hfirst : s.Rewrites log s') (hsecond : s'.Rewrites later s'') :
    s.Rewrites (log ++ later) s'' := by
  obtain ⟨vars, host, hupdates, rfl⟩ := hfirst
  obtain ⟨vars', host', hupdates', rfl⟩ := hsecond
  exact ⟨vars', host', hupdates.append hupdates', rfl⟩

variable {α β : Type}

/-- An action that changes variables and content, and writes no element. -/
def Keeps (m : Act α) : Prop :=
  ∀ s : Session, s.Rewrites [] (stateAfter (m s))

theorem keeps_pure (a : α) : Keeps (pure a : Act α) :=
  .refl

theorem Keeps.bind {m : Act α} {k : α → Act β} (hm : Keeps m) (hk : ∀ a, Keeps (k a)) :
    Keeps (m >>= k) := by
  intro s
  have hfirst := hm s
  rw [bind_apply]
  cases hend : m s with
  | ok a s' =>
      rw [hend] at hfirst
      exact hfirst.append (hk a s')
  | error e s' =>
      rw [hend] at hfirst
      exact hfirst

/-- An action that is made for its answer. -/
theorem Keeps.reply {m : Act α} (hm : Keeps m) (f : α → Reply) :
    Keeps (m >>= fun a => pure (f a)) :=
  hm.bind fun a => keeps_pure (f a)

theorem keeps_get : Keeps (get : Act Session) :=
  .refl

theorem get_bind_apply (k : Session → Act β) (s : Session) : (get >>= k) s = k s s :=
  rfl

theorem keeps_modifyHost {f : Session → Host} (hf : ∀ s : Session, s.host.Updates [] (f s)) :
    Keeps (modify fun s => { s with host := f s } : Act PUnit) :=
  fun s => ⟨s.vars, f s, hf s, rfl⟩

theorem keeps_await (r : Except Stop α) : Keeps (await r) := by
  intro s
  cases r <;> exact .refl s

theorem keeps_attempt (r : Except ScriptError α) : Keeps (attempt r) :=
  keeps_await (raising r)

theorem eval_apply (t : Term) (s : Session) :
    eval t s = match t.eval s.vars with
      | .ok v => .ok v s
      | .error e => .error e s := by
  rw [eval]
  cases t.eval s.vars <;> rfl

theorem evalAll_apply (ts : List Term) (s : Session) :
    evalAll ts s = match Term.evalAll s.vars ts with
      | .ok vs => .ok vs s
      | .error e => .error e s := by
  rw [evalAll]
  cases Term.evalAll s.vars ts <;> rfl

theorem keeps_eval (t : Term) : Keeps (eval t) :=
  fun s => keeps_attempt (t.eval s.vars) s

theorem keeps_store (name : String) (v : Value) : Keeps (store name v) :=
  fun s => ⟨_, s.host, .refl s.host, rfl⟩

theorem keeps_onVariable (name : String) (m : EStateM ScriptError Value α) :
    Keeps (onVariable name m) := by
  intro s
  rw [onVariable]
  cases m (s.valueOf name) <;> exact ⟨_, s.host, .refl s.host, rfl⟩

theorem rewrites_onPlace (name : String) (m : EStateM Stop Place α) {s : Session}
    {log : List ElementWrite}
    (hm : s.host.Updates log (stateAfter (m ⟨s.valueOf name, s.host⟩)).host) :
    s.Rewrites log (stateAfter (onPlace name m s)) := by
  rw [onPlace]
  cases hend : m ⟨s.valueOf name, s.host⟩ <;>
  · rw [hend] at hm
    exact ⟨_, _, hm, rfl⟩

theorem keeps_found {r : Option α} {k : α → Act Reply} (hk : ∀ a, Keeps (k a)) :
    Keeps (found r k) := by
  cases r with
  | none => exact keeps_pure Reply.refused
  | some a => exact hk a

end Session

namespace ScalarCommand

open Session

theorem keeps_perform (c : ScalarCommand) : Keeps c.perform := by
  cases c with
  | set var t => exact (keeps_eval t).bind fun v => (keeps_store var v).reply fun _ => .done
  | copy t => exact (keeps_eval t).reply .value
  | text t => exact (keeps_eval t).reply fun v => .text v.text
  | truthy t => exact (keeps_eval t).reply fun v => .flag v.isTruthy
  | binary op lhs rhs =>
      refine (keeps_eval lhs).bind fun lhs => (keeps_eval rhs).bind fun rhs => ?_
      exact keeps_get.bind fun s => (keeps_attempt _).reply .value
  | assign op var rhs =>
      refine (keeps_eval rhs).bind fun rhs => keeps_get.bind fun s => ?_
      exact (keeps_onVariable var _).reply .value
  | increment var => exact keeps_get.bind fun s => (keeps_onVariable var _).reply .value
  | decrement var => exact keeps_get.bind fun s => (keeps_onVariable var _).reply .value
  | negate t =>
      exact (keeps_eval t).bind fun v => keeps_get.bind fun s => (keeps_attempt _).reply .value
  | complement t =>
      exact (keeps_eval t).bind fun v => keeps_get.bind fun s => (keeps_attempt _).reply .value
  | logicalNot t => exact (keeps_eval t).reply fun v => .value (Arithmetic.logicalNot v)
  | equals lhs rhs =>
      refine (keeps_eval lhs).bind fun lhs => (keeps_eval rhs).bind fun rhs => ?_
      exact (keeps_attempt _).reply .flag
  | notEquals lhs rhs =>
      refine (keeps_eval lhs).bind fun lhs => (keeps_eval rhs).bind fun rhs => ?_
      exact (keeps_attempt _).reply .flag
  | order lhs rhs =>
      refine (keeps_eval lhs).bind fun lhs => (keeps_eval rhs).bind fun rhs => ?_
      exact (keeps_attempt _).reply .order
  | same lhs rhs =>
      exact (keeps_eval lhs).bind fun lhs => (keeps_eval rhs).reply fun rhs => .flag (lhs.same rhs)

end ScalarCommand

namespace ContainerCommand

open Session

/-- The writes of elements that a command comes to. -/
def writes (s : Session) : ContainerCommand → List ElementWrite
  | .writeIndex var key t =>
      match key.eval s.vars, t.eval s.vars with
      | .ok k, .ok v => Access.elementWrites ⟨s.valueOf var, s.host⟩ k v
      | _, _ => []
  | _ => []

theorem rewrites_perform_writeIndex (var : String) (key t : Term) (s : Session) :
    s.Rewrites (writes s (.writeIndex var key t))
      (stateAfter ((writeIndex var key t).perform s)) := by
  dsimp only [writes, perform]
  rw [bind_apply, eval_apply]
  cases key.eval s.vars with
  | error e => exact .refl s
  | ok k =>
      dsimp only
      rw [bind_apply, eval_apply]
      cases t.eval s.vars with
      | error e => exact .refl s
      | ok v =>
          have hwrite := rewrites_onPlace var (Access.writeIndex k v)
            (Access.updates_writeIndex k v ⟨s.valueOf var, s.host⟩)
          dsimp only
          rw [bind_apply]
          cases hend : onPlace var (Access.writeIndex k v) s <;>
          · rw [hend] at hwrite
            exact hwrite

theorem rewrites_perform (c : ContainerCommand) (s : Session) :
    s.Rewrites (c.writes s) (stateAfter (c.perform s)) := by
  -- For a command without writes the goal is that its action keeps the elements.
  revert s
  cases c with
  | push var t => exact (keeps_eval t).bind fun v => (keeps_onVariable var _).reply .count
  | popFront var => exact (keeps_onVariable var _).reply .value
  | popBack var => exact (keeps_onVariable var _).reply .value
  | insert var t at? => exact (keeps_eval t).bind fun v => (keeps_onVariable var _).reply .count
  | remove var index count? => exact (keeps_onVariable var _).reply .count
  | truncate var count => exact (keeps_onVariable var _).reply .count
  | clear var => exact (keeps_onVariable var _).reply fun _ => .done
  | peek target => exact (keeps_eval target).bind fun v => (keeps_attempt _).reply .value
  | readIndex target key =>
      refine (keeps_eval target).bind fun target => (keeps_eval key).bind fun key => ?_
      exact keeps_get.bind fun s => (keeps_await _).reply .value
  | writeIndex var key t => exact rewrites_perform_writeIndex var key t
  | readField target name =>
      refine (keeps_eval target).bind fun target => keeps_get.bind fun s => ?_
      exact (keeps_await _).reply .value
  | writeField var name t =>
      refine (keeps_eval t).bind fun v => Keeps.reply (m := onPlace var _) ?_ fun _ => .done
      exact fun s => rewrites_onPlace var _ (Access.updates_writeField name v ⟨_, s.host⟩)
  | removeKey var key =>
      exact (keeps_eval key).bind fun key => (keeps_onVariable var _).reply .value
  | containsKey target key =>
      refine (keeps_eval target).bind fun target => (keeps_eval key).bind fun key => ?_
      exact (keeps_attempt _).reply .flag
  | count target =>
      refine (keeps_eval target).bind fun target => keeps_get.bind fun s => ?_
      exact (keeps_await _).reply .count
  | keys target =>
      refine (keeps_eval target).bind fun target => ?_
      cases target with
      | hash table => exact keeps_pure _
      | _ => exact keeps_pure _
  | exchange var key t =>
      refine (keeps_eval key).bind fun key => (keeps_eval t).bind fun v => ?_
      refine (keeps_attempt _).bind fun k => keeps_get.bind fun s => ?_
      split
      · exact (keeps_store var _).reply fun _ => .value _
      · exact keeps_pure _

end ContainerCommand

/-! ## Moves -/

/-- What a command can make of a session. Beside the new session stand the name under which it
has loaded a context, if it has, and the elements that it has written. -/
inductive Session.Move (s : Session) :
    (loaded : Option String) → (log : List ElementWrite) → Session → Prop
  | content {log : List ElementWrite} {s' : Session} (rewritten : s.Rewrites log s') :
      Move s none log s'
  | newBuffer (name : String) (content : Buffer) :
      Move s none []
        ({ s with host := (s.host.addBuffer content).2 }.bindBuffer name
          (s.host.addBuffer content).1)
  | cloneBuffer {name : String} (copy : String) {r : BufferRef}
      (held : s.buffers.get? name = some r) :
      Move s none [] ({ s with host := s.host.retainBuffer r }.bindBuffer copy r)
  | dropBuffer (name : String) : Move s none [] (s.unbindBuffer name)
  | newSlot (name : String) (v : Value) :
      Move s none []
        ({ s with host := (s.host.addSlot v).2 }.bindSlot name (s.host.addSlot v).1)
  | cloneSlot {name : String} (copy : String) {r : SlotRef} (held : s.slots.get? name = some r) :
      Move s none [] ({ s with host := s.host.retainSlot r }.bindSlot copy r)
  | dropSlot (name : String) : Move s none [] (s.unbindSlot name)
  | newRecord (name : String) :
      Move s none []
        { s with
          host := s.host.addRecord.2
          records := s.records.insert name s.host.addRecord.1 }
  | dropRecord (name : String) : Move s none [] { s with records := s.records.erase name }
  | functions (registry : Registry Stock) : Move s none [] { s with registry }
  | context {name : String} {c c' : Context} (machine : StackMachine) (registry : Registry Stock)
      {host : Host} {log : List ElementWrite} (held : s.contexts.get? name = some c)
      (like : c'.Resembles c) (updated : s.host.Updates log host) :
      Move s none log
        { s with contexts := s.contexts.insert name c', machine, registry, host }
  | load (name : String) {borrowed : Bool} {config : Config} {image : List UInt8} {c : Context}
      (read : Context.load ⟨s.nextContext⟩ borrowed config image = .ok c) :
      Move s (some name) []
        { s with nextContext := s.nextContext + 1, contexts := s.contexts.insert name c }

theorem Session.Keeps.move {α : Type} {m : Act α} (hm : Keeps m) (s : Session) :
    s.Move none [] (stateAfter (m s)) :=
  .content (hm s)

namespace StorageCommand

open Session

/-- The writes of elements that a command comes to. -/
def writes (s : Session) : StorageCommand → List ElementWrite
  | .bufferSet name i n =>
      match s.buffers.get? name with
      | some r =>
          match s.host.buffer? r with
          | some b => if i < b.length then [⟨r.index, i, n⟩] else []
          | none => []
      | none => []
  | _ => []

theorem keeps_withBuffer {name : String} {k : BufferRef → Buffer → Act Reply}
    (hk : ∀ r b, Keeps (k r b)) : Keeps (withBuffer name k) :=
  keeps_get.bind fun _ => keeps_found fun r => keeps_found fun b => hk r b

theorem keeps_withSlot {name : String} {k : SlotRef → Value → Act Reply}
    (hk : ∀ r v, Keeps (k r v)) : Keeps (withSlot name k) :=
  keeps_get.bind fun _ => keeps_found fun r => keeps_found fun v => hk r v

theorem keeps_withRecord {name : String} {k : RecordRef → Act Reply} (hk : ∀ r, Keeps (k r)) :
    Keeps (withRecord name k) :=
  keeps_get.bind fun _ => keeps_found fun r => hk r

theorem withBuffer_apply (name : String) (k : BufferRef → Buffer → Act Reply) (s : Session) :
    withBuffer name k s = match s.buffers.get? name with
      | none => .ok .refused s
      | some r =>
          match s.host.buffer? r with
          | none => .ok .refused s
          | some b => k r b s := by
  rw [withBuffer, bind_apply]
  change found (s.buffers.get? name) _ s = _
  cases s.buffers.get? name with
  | none => rfl
  | some r =>
      change found (s.host.buffer? r) _ s = _
      dsimp only
      cases s.host.buffer? r <;> rfl

theorem withSlot_apply (name : String) (k : SlotRef → Value → Act Reply) (s : Session) :
    withSlot name k s = match s.slots.get? name with
      | none => .ok .refused s
      | some r =>
          match s.host.slot? r with
          | none => .ok .refused s
          | some v => k r v s := by
  rw [withSlot, bind_apply]
  change found (s.slots.get? name) _ s = _
  cases s.slots.get? name with
  | none => rfl
  | some r =>
      change found (s.host.slot? r) _ s = _
      dsimp only
      cases s.host.slot? r <;> rfl

/-- The host's write by name tells whether the buffer has the position. -/
theorem perform_bufferSet {s : Session} {name : String} {r : BufferRef} {b : Buffer}
    (hname : s.buffers.get? name = some r) (hb : s.host.buffer? r = some b) (i : Nat) (n : Int64) :
    (bufferSet name i n).perform s =
      .ok (.flag (i < b.length)) { s with host := s.host.setBuffer r (b.set i n) } := by
  simp only [perform, withBuffer_apply, hname, hb]
  rfl

theorem rewrites_perform_bufferSet (name : String) (i : Nat) (n : Int64) (s : Session) :
    s.Rewrites (writes s (.bufferSet name i n))
      (stateAfter ((bufferSet name i n).perform s)) := by
  rw [perform, withBuffer_apply, writes]
  cases s.buffers.get? name with
  | none => exact .refl s
  | some r =>
      dsimp only
      cases hb : s.host.buffer? r with
      | none => exact .refl s
      | some b =>
          refine ⟨s.vars, s.host.setBuffer r (b.set i n), ⟨Host.ledger_setBuffer hb rfl, ?_⟩, rfl⟩
          by_cases hi : i < b.length
          · simp only [if_pos hi]
            exact Host.replays_setBuffer hb
          · simp only [if_neg hi]
            rw [Host.setBuffer_of_length_le hb (Nat.le_of_not_lt hi)]
            exact Host.replays_of_buffers_eq rfl

theorem move_perform_cloneBuffer (name copy : String) (s : Session) :
    s.Move none [] (stateAfter ((cloneBuffer name copy).perform s)) := by
  rw [perform, withBuffer_apply]
  cases hname : s.buffers.get? name with
  | none => exact .content (.refl s)
  | some r =>
      dsimp only
      cases s.host.buffer? r with
      | none => exact .content (.refl s)
      | some b => exact .cloneBuffer copy hname

theorem move_perform_cloneSlot (name copy : String) (s : Session) :
    s.Move none [] (stateAfter ((cloneSlot name copy).perform s)) := by
  rw [perform, withSlot_apply]
  cases hname : s.slots.get? name with
  | none => exact .content (.refl s)
  | some r =>
      dsimp only
      cases s.host.slot? r with
      | none => exact .content (.refl s)
      | some v => exact .cloneSlot copy hname

theorem move_perform_newSlot (name : String) (t : Term) (s : Session) :
    s.Move none [] (stateAfter ((newSlot name t).perform s)) := by
  rw [perform, bind_apply, eval_apply]
  cases t.eval s.vars with
  | error e => exact .content (.refl s)
  | ok v => exact .newSlot name v

theorem move_perform (c : StorageCommand) (s : Session) :
    s.Move none (c.writes s) (stateAfter (c.perform s)) := by
  revert s
  cases c with
  | newBuffer name content => exact fun s => .newBuffer name content
  | bufferGet name index => exact (keeps_withBuffer fun _ b => keeps_pure _).move
  | bufferSet name index n => exact fun s => .content (rewrites_perform_bufferSet name index n s)
  | bufferContents name => exact (keeps_withBuffer fun _ b => keeps_pure _).move
  | bufferHandle name => exact (keeps_withBuffer fun r _ => keeps_pure _).move
  | cloneBuffer name copy => exact move_perform_cloneBuffer name copy
  | dropBuffer name => exact fun s => .dropBuffer name
  | inspectSlice target =>
      apply Keeps.move
      refine (keeps_eval target).bind fun target => ?_
      split
      · exact keeps_get.reply fun s => .slice _ _
      · exact keeps_pure _
  | newSlot name t => exact move_perform_newSlot name t
  | slotGet name => exact (keeps_withSlot fun _ v => keeps_pure _).move
  | slotSet name t =>
      apply Keeps.move
      refine (keeps_eval t).bind fun v => keeps_withSlot fun r _ => ?_
      exact (keeps_modifyHost fun s => s.host.updates_setSlot r v).reply fun _ => .done
  | slotHandle name => exact (keeps_withSlot fun r _ => keeps_pure _).move
  | cloneSlot name copy => exact move_perform_cloneSlot name copy
  | dropSlot name => exact fun s => .dropSlot name
  | newRecord name => exact fun s => .newRecord name
  | addValue record field t =>
      apply Keeps.move
      refine (keeps_eval t).bind fun v => keeps_withRecord fun r => ?_
      exact (keeps_modifyHost fun s => s.host.updates_attach r field _).reply fun _ => .done
  | addBuffer record field buffer =>
      apply Keeps.move
      refine keeps_withRecord fun r => keeps_withBuffer fun b _ => ?_
      exact (keeps_modifyHost fun s => s.host.updates_attach r field _).reply fun _ => .done
  | addSlot record field slot =>
      apply Keeps.move
      refine keeps_withRecord fun r => keeps_withSlot fun v _ => ?_
      exact (keeps_modifyHost fun s => s.host.updates_attach r field _).reply fun _ => .done
  | recordGet record field =>
      apply Keeps.move
      exact keeps_withRecord fun r => keeps_get.bind fun s => (keeps_attempt _).reply .value
  | recordHandle record => exact (keeps_withRecord fun r => keeps_pure _).move
  | dropRecord record => exact fun s => .dropRecord record
  | inspectField target field =>
      apply Keeps.move
      refine (keeps_eval target).bind fun target => ?_
      split
      · exact keeps_get.reply fun s => .field _ _
      · exact keeps_pure _

end StorageCommand

namespace ProgramCommand

open Session

/-- The writes of elements that a command comes to: those of the code that it runs. -/
def writes (s : Session) : ProgramCommand → List ElementWrite
  | .call name engine (.unit hash) args =>
      match Term.evalAll s.vars args, s.contexts.get? name with
      | .ok vs, some c => Context.callWrites engine hash vs (callSite s c)
      | _, _ => []
  | .call name engine (.reference t) args =>
      match Term.evalAll s.vars args, t.eval s.vars, s.contexts.get? name with
      | .ok vs, .ok target, some c =>
          Context.callReferenceWrites engine target vs (callSite s c)
      | _, _, _ => []
  | _ => []

/-- The name under which a command loads a context, if it loads one. -/
def loads? : ProgramCommand → Option String
  | .load name image borrowed config =>
      match Context.load ⟨0⟩ borrowed config image with
      | .ok _ => some name
      | .error _ => none
  | _ => none

theorem withContext_apply (name : String) (k : Context → Act Reply) (s : Session) :
    withContext name k s = match s.contexts.get? name with
      | none => .ok .refused s
      | some c => k c s := by
  rw [withContext, bind_apply]
  change found (s.contexts.get? name) k s = _
  cases s.contexts.get? name <;> rfl

theorem keeps_withContext {name : String} {k : Context → Act Reply} (hk : ∀ c, Keeps (k c)) :
    Keeps (withContext name k) :=
  keeps_get.bind fun _ => keeps_found fun c => hk c

theorem move_setContext {s : Session} {name : String} {c c' : Context}
    (held : s.contexts.get? name = some c) (like : c'.Resembles c) :
    s.Move none [] { s with contexts := s.contexts.insert name c' } :=
  .context s.machine s.registry held like (.refl s.host)

theorem move_runCall {s : Session} {name : String} {c : Context} {engine : Engine}
    {m : EStateM Stop (CallSite StackMachine Stock) Value} {log : List ElementWrite}
    (held : s.contexts.get? name = some c)
    (hafter : Context.After engine.executor (callSite s c) (stateAfter (m (callSite s c))))
    (hupdates : s.host.Updates log (stateAfter (m (callSite s c))).host) :
    s.Move none log (stateAfter (runCall name c m s)) := by
  have hlike := hafter.resembles engine.executor_inPlace
  rw [runCall]
  rcases hend : m (callSite s c) with ⟨v, site⟩ | ⟨_ | _ | _, site⟩ <;>
  · rw [hend] at hlike hupdates
    exact .context _ _ held hlike hupdates

theorem move_perform_call (name : String) (engine : Engine) (callee : Callee)
    (args : List Term) (s : Session) :
    s.Move none (writes s (.call name engine callee args))
      (stateAfter ((call name engine callee args).perform s)) := by
  cases callee with
  | unit hash =>
      dsimp only [writes, perform]
      rw [bind_apply, evalAll_apply]
      cases Term.evalAll s.vars args with
      | error e => exact .content (.refl s)
      | ok vs =>
          dsimp only
          rw [withContext_apply]
          cases held : s.contexts.get? name with
          | none => exact .content (.refl s)
          | some c =>
              exact move_runCall held (Context.after_call engine.executor hash vs (callSite s c))
                (Context.updates_call engine hash vs (callSite s c))
  | reference t =>
      dsimp only [writes, perform]
      rw [bind_apply, evalAll_apply]
      cases Term.evalAll s.vars args with
      | error e => exact .content (.refl s)
      | ok vs =>
          dsimp only
          rw [bind_apply, eval_apply]
          cases t.eval s.vars with
          | error e => exact .content (.refl s)
          | ok target =>
              dsimp only
              rw [withContext_apply]
              cases held : s.contexts.get? name with
              | none => exact .content (.refl s)
              | some c =>
                  exact move_runCall held
                    (Context.after_callReference engine.executor target vs (callSite s c))
                    (Context.updates_callReference engine target vs (callSite s c))

theorem move_perform_register (name : String) (kind : StockKind) (captured : Term) (s : Session) :
    s.Move none [] (stateAfter ((register name kind captured).perform s)) := by
  rw [perform, bind_apply, eval_apply]
  cases captured.eval s.vars with
  | error e => exact .content (.refl s)
  | ok v => exact .functions _

theorem move_perform_callNative (name : String) (args globals : List Term) (s : Session) :
    s.Move none [] (stateAfter ((callNative name args globals).perform s)) := by
  rw [perform, bind_apply, evalAll_apply]
  cases Term.evalAll s.vars args with
  | error e => exact .content (.refl s)
  | ok vs =>
      dsimp only
      rw [bind_apply, evalAll_apply]
      cases Term.evalAll s.vars globals with
      | error e => exact .content (.refl s)
      | ok globals =>
          have hhost := World.host_callNative s.width name vs ⟨globals, s.registry, s.host⟩
          -- The host stored back is the one that was read before the call.
          have hmove : ∀ w : World Stock, w.host = s.host →
              s.Move none [] { s with registry := w.registry, host := w.host } := by
            intro w hw
            rw [hw]
            exact .functions w.registry
          dsimp only
          rw [get_bind_apply]
          cases hend : World.callNative s.width name vs ⟨globals, s.registry, s.host⟩ <;>
          · rw [hend] at hhost
            exact hmove _ hhost

theorem move_perform_load (name : String) (image : List UInt8) (borrowed : Bool) (config : Config)
    (s : Session) :
    s.Move (loads? (.load name image borrowed config)) []
      (stateAfter ((load name image borrowed config).perform s)) := by
  dsimp only [loads?, perform]
  rw [get_bind_apply]
  cases hload : Context.load ⟨s.nextContext⟩ borrowed config image with
  | ok c =>
      obtain ⟨c', hc'⟩ := Context.exists_load ⟨0⟩ hload
      have hmove : s.Move (some name) [] _ := .load name hload
      rw [hc']
      exact hmove
  | error e =>
      cases hc : Context.load ⟨0⟩ borrowed config image with
      | ok c =>
          obtain ⟨c', hc'⟩ := Context.exists_load ⟨s.nextContext⟩ hc
          exact absurd (hload.symm.trans hc') nofun
      | error e' => exact .content (.refl s)

theorem move_perform_own (name : String) (s : Session) :
    s.Move none [] (stateAfter ((own name).perform s)) := by
  rw [perform, withContext_apply]
  cases held : s.contexts.get? name with
  | none => exact .content (.refl s)
  | some c => exact move_setContext held ⟨false, c.globals, rfl, rfl⟩

theorem move_perform_setGlobal (name : String) (slot : Nat) (t : Term) (s : Session) :
    s.Move none [] (stateAfter ((setGlobal name slot t).perform s)) := by
  rw [perform, bind_apply, eval_apply]
  cases t.eval s.vars with
  | error e => exact .content (.refl s)
  | ok v =>
      dsimp only
      rw [withContext_apply]
      cases held : s.contexts.get? name with
      | none => exact .content (.refl s)
      | some c =>
          dsimp only
          split
          · exact move_setContext held ⟨c.borrowed, _, List.length_set, rfl⟩
          · exact .content (.refl s)

theorem move_perform (c : ProgramCommand) (s : Session) :
    s.Move c.loads? (c.writes s) (stateAfter (c.perform s)) := by
  revert s
  cases c with
  | register name kind captured => exact move_perform_register name kind captured
  | unregister name => exact fun s => .functions _
  | inspectRegistry name => exact (keeps_get.reply fun s => .registry _ _ _).move
  | callNative name args globals => exact move_perform_callNative name args globals
  | load name image borrowed config => exact move_perform_load name image borrowed config
  | own name => exact move_perform_own name
  | inspectContext name => exact (keeps_withContext fun c => keeps_pure _).move
  | findUnit name hash => exact (keeps_withContext fun c => keeps_pure _).move
  | reference name hash => exact (keeps_withContext fun c => (keeps_attempt _).reply .value).move
  | setGlobal name slot t => exact move_perform_setGlobal name slot t
  | call name engine callee args => exact move_perform_call name engine callee args

end ProgramCommand

/-! ## Sessions -/

namespace Command

/-- The writes of elements that a command comes to. -/
def writes (s : Session) : Command → List ElementWrite
  | .scalar _ => []
  | .container c => c.writes s
  | .storage c => c.writes s
  | .program c => c.writes s

/-- The name under which a command loads a context, if it loads one. -/
def loads? : Command → Option String
  | .program c => c.loads?
  | _ => none

theorem move_perform (c : Command) (s : Session) :
    s.Move c.loads? (c.writes s) (stateAfter (c.perform s)) := by
  cases c with
  | scalar c => exact .content (c.keeps_perform s)
  | container c => exact .content (c.rewrites_perform s)
  | storage c => exact c.move_perform s
  | program c => exact c.move_perform s

end Command

namespace Session

/-- A step is a move, after which a variable may receive the reply. -/
theorem exists_move_perform (s : Session) (step : Step) :
    ∃ s', s.Move step.command.loads? (step.command.writes s) s' ∧
      ∃ vars, (s.perform step).2 = { s' with vars } := by
  have hmove := step.command.move_perform s
  rw [perform]
  cases hend : step.command.perform s with
  | ok r s' =>
      rw [hend] at hmove
      refine ⟨s', hmove, ?_⟩
      dsimp only
      unfold keep
      split
      · exact ⟨_, rfl⟩
      · exact ⟨s'.vars, rfl⟩
  | error e s' =>
      rw [hend] at hmove
      exact ⟨s', hmove, s'.vars, rfl⟩

/-- The steps of a list that a session comes to: those up to the first without a result. -/
def performed (s : Session) : List Step → List Step
  | [] => []
  | step :: rest =>
      step :: if hasResult (s.perform step).1.reply then (s.perform step).2.performed rest else []

/-- The session that steps leave, one after another. -/
def after (s : Session) (steps : List Step) : Session :=
  steps.foldl (fun s step => (s.perform step).2) s

theorem performAll_snd (s : Session) (steps : List Step) :
    (s.performAll steps).2 = s.after (s.performed steps) := by
  induction steps generalizing s with
  | nil => rfl
  | cons step rest ih =>
      simp only [performAll, performed, after, List.foldl_cons]
      split
      · exact ih (s.perform step).2
      · rfl

end Session

end ScriptCore
