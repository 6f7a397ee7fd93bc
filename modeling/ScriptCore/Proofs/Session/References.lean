import ScriptCore.Proofs.Dictionary.Lookup
import ScriptCore.Proofs.Machine.Failures
import ScriptCore.Proofs.Session.Moves

/-!
# References to units

Contexts are numbered in the order in which they are loaded, and nothing changes the number or
the units of a context after that. A reference holds the number of the context that it was made
from. So it names a unit there, however the context has been used and whoever owns its bytes by
then, and in every other context it is refused.
-/

namespace ScriptCore

namespace Context

/-- A reference holds the hash that it was asked for and the number of the context. -/
theorem reference_eq_ok {c : Context} {hash : UnitHash} {ref : Value}
    (h : c.reference hash = .ok ref) :
    (∃ u, c.unit hash = .ok u) ∧ ref = .unit ⟨hash, c.id⟩ := by
  obtain ⟨u, hu, rfl⟩ := exists_of_map_eq_ok h
  rw [unit] at hu
  split at hu
  · rename_i found hfound
    obtain rfl := Except.ok.inj hu
    obtain rfl : found.hash = hash := by simpa using List.find?_some hfound
    exact ⟨⟨found, by rw [unit, hfound]⟩, rfl⟩
  · contradiction

theorem Resembles.unit_eq {c d : Context} (h : c.Resembles d) (hash : UnitHash) :
    c.unit hash = d.unit hash := by
  obtain ⟨borrowed, globals, -, rfl⟩ := h
  rfl

theorem Resembles.id_eq {c d : Context} (h : c.Resembles d) : c.id = d.id := by
  obtain ⟨borrowed, globals, -, rfl⟩ := h
  rfl

end Context

theorem Engine.endsUnitless_executor (engine : Engine) (frame : Frame)
    (s : StackMachine.State Stock) : EndsUnitless (engine.executor frame s) := by
  cases engine with
  | machine => exact StackMachine.endsUnitless_executor frame s
  | probe => trivial

namespace Session

variable {s s' s'' : Session} {n : Nat}

/-- The names under which steps load contexts, one for each load that succeeds. -/
def loadedNames (steps : List Step) : List String :=
  steps.filterMap (·.command.loads?)

theorem exists_get?_insert {α : Type} {d : Dictionary String α} {name : String} {a : α}
    (other : String) (b : α) (hb : d.get? other = some b) :
    ∃ b', (d.insert name a).get? other = some b' := by
  by_cases hname : name = other
  · exact ⟨a, hname ▸ Dictionary.get?_insert_self⟩
  · exact ⟨b, (Dictionary.get?_insert_of_ne hname).trans hb⟩

/-- What a move makes of the contexts. -/
inductive Reloads (s : Session) : Option String → Session → Prop
  | kept {s' : Session} (next : s'.nextContext = s.nextContext)
      (stays : ∀ name c, s.contexts.get? name = some c → ∃ c', s'.contexts.get? name = some c')
      (like : ∀ name c, s'.contexts.get? name = some c →
        ∃ old, s.contexts.get? name = some old ∧ c.Resembles old) : Reloads s none s'
  | loaded {s' : Session} (name : String) (c : Context) (fresh : c.id = ⟨s.nextContext⟩)
      (next : s'.nextContext = s.nextContext + 1)
      (bound : s'.contexts = s.contexts.insert name c) : Reloads s (some name) s'

theorem Reloads.of_eq (hcontexts : s'.contexts = s.contexts)
    (hnext : s'.nextContext = s.nextContext) : s.Reloads none s' := by
  refine .kept hnext (fun name c hc => ⟨c, ?_⟩) fun name c hc => ⟨c, ?_, .refl c⟩
  · rw [hcontexts]
    exact hc
  · rw [← hcontexts]
    exact hc

theorem Reloads.setVars {loaded : Option String} (h : s.Reloads loaded s')
    (vars : Term.Variables) : s.Reloads loaded { s' with vars } := by
  cases h with
  | kept next stays like => exact .kept next stays like
  | loaded name c fresh next bound => exact .loaded name c fresh next bound

theorem Move.reloads {loaded : Option String} {log : List ElementWrite}
    (h : s.Move loaded log s') : s.Reloads loaded s' := by
  cases h with
  | content rewritten =>
      obtain ⟨vars, host, -, rfl⟩ := rewritten
      exact .of_eq rfl rfl
  | @context name c c' machine registry host log held like updated =>
      refine .kept rfl exists_get?_insert ?_
      intro other d hd
      rcases Dictionary.eq_or_get?_of_get?_insert hd with ⟨rfl, rfl⟩ | hold
      · exact ⟨c, held, like⟩
      · exact ⟨d, hold, .refl d⟩
  | @load name borrowed config image c read =>
      refine .loaded name c ?_ rfl rfl
      obtain ⟨_, -, -, rfl⟩ := Context.load_eq_ok_iff.mp read
      rfl
  | _ => exact .of_eq rfl rfl

/-- Contexts are numbered from one on, and no two have the same number. -/
structure Numbered (s : Session) (loads : Nat) : Prop where
  next : s.nextContext.toNat = loads + 1
  numbers : ∀ name c, s.contexts.get? name = some c → c.id.val.toNat ≤ loads
  distinct : ∀ name name' c c', s.contexts.get? name = some c →
    s.contexts.get? name' = some c' → c.id = c'.id → name = name'

theorem numbered_start (width : Width) : (start width).Numbered 0 :=
  ⟨rfl, nofun, nofun⟩

/-- The contexts of `s` are there in `s'`. One that was loaded since then has a number above
`loads`; every other is that of `s` but for its globals and the owner of its bytes. -/
structure Carries (s : Session) (loads : Nat) (loaded : List String) (s' : Session) : Prop where
  stays : ∀ name c, s.contexts.get? name = some c → ∃ c', s'.contexts.get? name = some c'
  numbers : ∀ name c, s'.contexts.get? name = some c → name ∈ loaded → loads < c.id.val.toNat
  like : ∀ name c, s'.contexts.get? name = some c → name ∉ loaded →
    ∃ old, s.contexts.get? name = some old ∧ c.Resembles old

theorem Carries.refl (s : Session) (loads : Nat) : s.Carries loads [] s :=
  ⟨fun _ c hc => ⟨c, hc⟩, nofun, fun _ c hc _ => ⟨c, hc, .refl c⟩⟩

theorem Carries.append {m : Nat} {loaded later : List String} (h : s.Carries n loaded s')
    (hle : n ≤ m) (h' : s'.Carries m later s'') : s.Carries n (loaded ++ later) s'' := by
  constructor
  case stays =>
    intro name c hc
    obtain ⟨c', hc'⟩ := h.stays name c hc
    exact h'.stays name c' hc'
  case numbers =>
    intro name c hc hmem
    by_cases hlater : name ∈ later
    · exact Nat.lt_of_le_of_lt hle (h'.numbers name c hc hlater)
    · obtain ⟨old, hold, hlike⟩ := h'.like name c hc hlater
      rw [hlike.id_eq]
      exact h.numbers name old hold ((List.mem_append.mp hmem).resolve_right hlater)
  case like =>
    intro name c hc hmem
    obtain ⟨hloaded, hlater⟩ := not_or.mp fun hor => hmem (List.mem_append.mpr hor)
    obtain ⟨old, hold, hlike⟩ := h'.like name c hc hlater
    obtain ⟨older, holder, hlike'⟩ := h.like name old hold hloaded
    exact ⟨older, holder, hlike.trans hlike'⟩

namespace Reloads

variable {loaded : Option String}

theorem numbered (h : s.Reloads loaded s') (hs : s.Numbered n)
    (hbound : n + loaded.toList.length < 2 ^ 32 - 1) :
    s'.Numbered (n + loaded.toList.length) := by
  cases h with
  | kept next stays like =>
      refine ⟨?_, ?_, ?_⟩
      · rw [next]
        exact hs.next
      · intro name c hc
        obtain ⟨old, hold, hlike⟩ := like name c hc
        rw [hlike.id_eq]
        exact hs.numbers name old hold
      · intro name name' c c' hc hc' hid
        obtain ⟨old, hold, hlike⟩ := like name c hc
        obtain ⟨old', hold', hlike'⟩ := like name' c' hc'
        rw [hlike.id_eq, hlike'.id_eq] at hid
        exact hs.distinct name name' old old' hold hold' hid
  | loaded name c fresh next bound =>
      have hnumber : c.id.val.toNat = n + 1 := by
        rw [fresh]
        exact hs.next
      have hcases : ∀ other d, s'.contexts.get? other = some d →
          name = other ∧ c = d ∨ s.contexts.get? other = some d := by
        intro other d hd
        rw [bound] at hd
        exact Dictionary.eq_or_get?_of_get?_insert hd
      have hfresh : ∀ other d, s.contexts.get? other = some d → d.id ≠ c.id := by
        intro other d hd hid
        have hle := hs.numbers other d hd
        rw [hid] at hle
        omega
      refine ⟨?_, ?_, ?_⟩
      · have hlt : n + 1 < 2 ^ 32 - 1 := hbound
        rw [next, UInt32.toNat_add, hs.next]
        exact Nat.mod_eq_of_lt (by simp; omega)
      · intro other d hd
        rcases hcases other d hd with ⟨-, rfl⟩ | hold
        · exact Nat.le_of_eq hnumber
        · exact Nat.le_succ_of_le (hs.numbers other d hold)
      · intro first second d d' hd hd' hid
        rcases hcases first d hd with ⟨rfl, rfl⟩ | hold
        · rcases hcases second d' hd' with ⟨rfl, -⟩ | hold'
          · rfl
          · exact absurd hid.symm (hfresh second d' hold')
        · rcases hcases second d' hd' with ⟨rfl, rfl⟩ | hold'
          · exact absurd hid (hfresh first d hold)
          · exact hs.distinct first second d d' hold hold' hid

theorem carries (h : s.Reloads loaded s') (hs : s.Numbered n) :
    s.Carries n loaded.toList s' := by
  cases h with
  | kept next stays like => exact ⟨stays, nofun, fun name c hc _ => like name c hc⟩
  | loaded name c fresh next bound =>
      constructor <;> rw [bound]
      case stays => exact exists_get?_insert
      case numbers =>
        intro other d hd hother
        obtain rfl : other = name := by simpa using hother
        obtain rfl : c = d := Option.some.inj (Dictionary.get?_insert_self.symm.trans hd)
        rw [fresh, hs.next]
        exact Nat.lt_succ_self n
      case like =>
        intro other d hd hother
        have hname : name ≠ other := fun heq => hother (by simp [heq])
        rw [Dictionary.get?_insert_of_ne hname] at hd
        exact ⟨d, hd, .refl d⟩

end Reloads

theorem loadedNames_cons (step : Step) (rest : List Step) :
    loadedNames (step :: rest) = step.command.loads?.toList ++ loadedNames rest := by
  rw [loadedNames, List.filterMap_cons]
  cases step.command.loads? <;> rfl

theorem performed_sublist (s : Session) (steps : List Step) : (s.performed steps).Sublist steps := by
  induction steps generalizing s with
  | nil => exact .slnil
  | cons step rest ih =>
      refine .cons_cons step ?_
      split
      · exact ih (s.perform step).2
      · exact List.nil_sublist rest

theorem length_loadedNames_performed_le (s : Session) (steps : List Step) :
    (loadedNames (s.performed steps)).length ≤ (loadedNames steps).length :=
  ((s.performed_sublist steps).filterMap _).length_le

/-- Whatever steps are performed, no number is given twice. -/
theorem Numbered.after (hs : s.Numbered n) (steps : List Step)
    (hbound : n + (loadedNames steps).length < 2 ^ 32 - 1) :
    (s.after steps).Numbered (n + (loadedNames steps).length) ∧
      s.Carries n (loadedNames steps) (s.after steps) := by
  induction steps generalizing s n with
  | nil => exact ⟨hs, .refl s n⟩
  | cons step rest ih =>
      obtain ⟨s', hmove, vars, hperform⟩ := s.exists_move_perform step
      rw [loadedNames_cons, List.length_append, ← Nat.add_assoc] at hbound ⊢
      have hreloads : s.Reloads step.command.loads? (s.perform step).2 :=
        hperform ▸ hmove.reloads.setVars vars
      have hfirst := hreloads.numbered hs (by omega)
      obtain ⟨hrest, hcarries⟩ := ih hfirst hbound
      exact ⟨hrest, (hreloads.carries hs).append (Nat.le_add_right _ _) hcarries⟩

/-! ## Calls of references -/

/-- The reference names the unit of that hash in the context of that name. -/
structure CallsUnit (s : Session) (name : String) (ref : Value) (hash : UnitHash) : Prop where
  exists_context : ∃ c, s.contexts.get? name = some c
  /-- With whatever executor, calling it is calling the unit by its hash, -/
  calls : ∀ {σ φ : Type} (execute : Executor σ φ) (args : List Value) (site : CallSite σ φ),
    s.contexts.get? name = some site.context →
      Context.callReference execute ref args site = Context.call execute hash args site
  /-- and the unit is found: the call fails for the number of its arguments, or as the
  executor does. -/
  fails : ∀ {σ φ : Type} (execute : Executor σ φ) (args : List Value) (site : CallSite σ φ),
    s.contexts.get? name = some site.context →
      ∀ e after, Context.callReference execute ref args site = .error e after →
        e = ScriptError.positionOutOfRange args.length site.context.config.limits.args ∨
          ∃ frame r, execute frame (Context.enter site) = .error e r
  /-- A session that calls it does what it does when it calls the unit by its hash, -/
  performs : ∀ engine t args, t.eval s.vars = .ok ref →
    (ProgramCommand.call name engine (.reference t) args).perform s =
      (ProgramCommand.call name engine (.unit hash) args).perform s
  /-- and is never told that the unit is unknown. -/
  known : ∀ engine t args result globals steps s', t.eval s.vars = .ok ref →
    (ProgramCommand.call name engine (.reference t) args).perform s =
      .ok (.call result globals steps) s' →
      ∀ other, result ≠ .error (.unknownUnit other)

/-- The reference belongs to another context than the one of that name. -/
structure RefusesUnit (s : Session) (name : String) (ref : Value) (hash : UnitHash) : Prop where
  /-- Calling it fails with everything as it was, whatever the executor. -/
  refuses : ∀ {σ φ : Type} (execute : Executor σ φ) (args : List Value) (site : CallSite σ φ),
    s.contexts.get? name = some site.context →
      Context.callReference execute ref args site = .error (.raised (.foreignUnit hash)) site
  /-- A session that calls it is the same session afterwards. -/
  performs : ∀ engine t args values c, s.contexts.get? name = some c →
    t.eval s.vars = .ok ref → Term.evalAll s.vars args = .ok values →
      (ProgramCommand.call name engine (.reference t) args).perform s =
        .ok (.call (.error (.foreignUnit hash)) c.globals s.machine.steps) s

/-- A call that finds its unit fails for the number of its arguments, or as the executor does. -/
theorem error_of_call {σ φ : Type} {execute : Executor σ φ} {hash : UnitHash} {args : List Value}
    {site after : CallSite σ φ} {u : UnitEntry} {e : Stop}
    (hu : site.context.unit hash = .ok u)
    (hcall : Context.call execute hash args site = .error e after) :
    e = ScriptError.positionOutOfRange args.length site.context.config.limits.args ∨
      ∃ frame r, execute frame (Context.enter site) = .error e r := by
  simp only [Context.call, hu] at hcall
  split at hcall
  · exact .inl (EStateM.Result.error.inj hcall).1.symm
  · split at hcall
    · contradiction
    · rename_i e' r hrun
      obtain ⟨rfl, -⟩ := EStateM.Result.error.inj hcall
      exact .inr ⟨_, r, hrun⟩

theorem perform_call_reference {name : String} {engine : Engine} {t : Term} {args : List Term}
    {ref : Value} (href : t.eval s.vars = .ok ref) :
    (ProgramCommand.call name engine (.reference t) args).perform s =
      match Term.evalAll s.vars args with
      | .error e => .error e s
      | .ok values =>
          match s.contexts.get? name with
          | none => .ok .refused s
          | some c =>
              ProgramCommand.runCall name c
                (Context.callReference engine.executor ref values) s := by
  rw [ProgramCommand.perform, bind_apply, evalAll_apply]
  cases Term.evalAll s.vars args with
  | error e => rfl
  | ok values =>
      dsimp only
      rw [bind_apply, eval_apply, href]
      exact ProgramCommand.withContext_apply name _ s

theorem perform_call_unit (name : String) (engine : Engine) (hash : UnitHash) (args : List Term) :
    (ProgramCommand.call name engine (.unit hash) args).perform s =
      match Term.evalAll s.vars args with
      | .error e => .error e s
      | .ok values =>
          match s.contexts.get? name with
          | none => .ok .refused s
          | some c =>
              ProgramCommand.runCall name c (Context.call engine.executor hash values) s := by
  rw [ProgramCommand.perform, bind_apply, evalAll_apply]
  cases Term.evalAll s.vars args with
  | error e => rfl
  | ok values => exact ProgramCommand.withContext_apply name _ s

theorem callsUnit {name : String} {hash : UnitHash} {c : Context} {u : UnitEntry}
    (held : s.contexts.get? name = some c) (hu : c.unit hash = .ok u) :
    s.CallsUnit name (.unit ⟨hash, c.id⟩) hash := by
  have hcalls : ∀ {σ φ : Type} (execute : Executor σ φ) (args : List Value)
      (site : CallSite σ φ), s.contexts.get? name = some site.context →
        Context.callReference execute (.unit ⟨hash, c.id⟩) args site =
          Context.call execute hash args site := by
    intro σ φ execute args site hsite
    obtain rfl := Option.some.inj (held.symm.trans hsite)
    exact if_pos rfl
  have hfails : ∀ {σ φ : Type} (execute : Executor σ φ) (args : List Value)
      (site : CallSite σ φ), s.contexts.get? name = some site.context →
        ∀ e after, Context.callReference execute (.unit ⟨hash, c.id⟩) args site =
          .error e after →
            e = ScriptError.positionOutOfRange args.length site.context.config.limits.args ∨
              ∃ frame r, execute frame (Context.enter site) = .error e r := by
    intro σ φ execute args site hsite e after hcall
    rw [hcalls execute args site hsite] at hcall
    obtain rfl := Option.some.inj (held.symm.trans hsite)
    exact error_of_call hu hcall
  refine ⟨⟨c, held⟩, hcalls, hfails, ?performs, ?known⟩
  case performs =>
    intro engine t args href
    rw [perform_call_reference href, perform_call_unit]
    cases Term.evalAll s.vars args with
    | error e => rfl
    | ok values =>
        simp only [held]
        rw [ProgramCommand.runCall, ProgramCommand.runCall,
          hcalls engine.executor values (ProgramCommand.callSite s c) held]
  case known =>
    intro engine t args result globals steps s' href hperform other
    rw [perform_call_reference href] at hperform
    rintro rfl
    split at hperform
    · contradiction
    · rename_i values _
      simp only [held, ProgramCommand.runCall] at hperform
      split at hperform
      · exact absurd (EStateM.Result.ok.inj hperform).1 (by simp)
      · rename_i e after hend
        obtain ⟨hreply, -⟩ := EStateM.Result.ok.inj hperform
        obtain rfl : e = .unknownUnit other := Except.error.inj (Reply.call.inj hreply).1
        rcases hfails engine.executor values (ProgramCommand.callSite s c) held _ _ hend with
          hmany | ⟨frame, r, hrun⟩
        · have hunknown := Stop.raised.inj hmany
          rw [ScriptError.positionOutOfRange] at hunknown
          contradiction
        · exact (engine.endsUnitless_executor frame _).of_error hrun trivial
      · contradiction

theorem refusesUnit {name : String} {hash : UnitHash} {id : ContextId}
    (hid : ∀ c, s.contexts.get? name = some c → c.id ≠ id) :
    s.RefusesUnit name (.unit ⟨hash, id⟩) hash := by
  have hrefuses : ∀ {σ φ : Type} (execute : Executor σ φ) (args : List Value)
      (site : CallSite σ φ), s.contexts.get? name = some site.context →
        Context.callReference execute (.unit ⟨hash, id⟩) args site =
          .error (.raised (.foreignUnit hash)) site :=
    fun execute args site hsite => if_neg fun heq => hid _ hsite heq.symm
  refine ⟨hrefuses, ?_⟩
  intro engine t args values c held href hvalues
  rw [perform_call_reference href, hvalues]
  simp only [held]
  rw [ProgramCommand.runCall, hrefuses engine.executor values (ProgramCommand.callSite s c) held]
  dsimp only [ProgramCommand.afterCall, ProgramCommand.callSite]
  rw [Dictionary.insert_of_get? held]

theorem exists_context_of_reference {d : String} {hash : UnitHash} {ref : Value}
    (hmint : (ProgramCommand.reference d hash).perform s = .ok (.value ref) s') :
    ∃ home, s.contexts.get? d = some home ∧ (∃ u, home.unit hash = .ok u) ∧
      ref = .unit ⟨hash, home.id⟩ := by
  rw [ProgramCommand.perform, ProgramCommand.withContext_apply] at hmint
  split at hmint
  · have hreply := (EStateM.Result.ok.inj hmint).1
    contradiction
  · rename_i home hhome
    rw [bind_apply] at hmint
    cases href : home.reference hash with
    | error e =>
        simp only [href, attempt, await, raising, reduceCtorEq] at hmint
    | ok v =>
        simp only [href, attempt, await, raising] at hmint
        obtain ⟨⟨rfl⟩, -⟩ := EStateM.Result.ok.inj hmint
        exact ⟨home, hhome, Context.reference_eq_ok href⟩

/-- A reference works with the context that it was made from, and with no other. It may have
been made under a name that has got another context since then; that is not the context. -/
theorem unit_reference_works_with_own_context_only (width : Width) (steps later : List Step)
    (hloads : (loadedNames (steps ++ later)).length < 2 ^ 32 - 1) :
    let s := ((start width).performAll steps).2
    let s' := (s.performAll later).2
    ∀ d hash ref minted, (ProgramCommand.reference d hash).perform s = .ok (.value ref) minted →
      ∀ c, if c = d ∧ d ∉ loadedNames (s.performed later) then s'.CallsUnit c ref hash
        else s'.RefusesUnit c ref hash := by
  intro s s' d hash ref minted hmint c
  rw [loadedNames, List.filterMap_append, List.length_append] at hloads
  have hearlier := (start width).length_loadedNames_performed_le steps
  have hlater := s.length_loadedNames_performed_le later
  simp only [loadedNames] at hearlier hlater
  have hs : s.Numbered (0 + (loadedNames ((start width).performed steps)).length) := by
    have hnumbered := (numbered_start width).after ((start width).performed steps)
      (by simp only [loadedNames]; omega)
    rw [← performAll_snd] at hnumbered
    exact hnumbered.1
  have hcarries := (hs.after (s.performed later) (by simp only [loadedNames]; omega)).2
  rw [← performAll_snd] at hcarries
  obtain ⟨home, hhome, ⟨u, hu⟩, rfl⟩ := exists_context_of_reference hmint
  by_cases hown : c = d ∧ d ∉ loadedNames (s.performed later)
  · rw [if_pos hown]
    obtain ⟨rfl, hkept⟩ := hown
    obtain ⟨ctx, hctx⟩ := hcarries.stays c home hhome
    obtain ⟨old, hold, hlike⟩ := hcarries.like c ctx hctx hkept
    obtain rfl := Option.some.inj (hhome.symm.trans hold)
    rw [← hlike.id_eq]
    exact callsUnit hctx ((hlike.unit_eq hash).trans hu)
  · rw [if_neg hown]
    apply refusesUnit
    intro ctx hctx hid
    by_cases hloaded : c ∈ loadedNames (s.performed later)
    · have habove := hcarries.numbers c ctx hctx hloaded
      have hbelow := hs.numbers d home hhome
      rw [hid] at habove
      omega
    · obtain ⟨old, hold, hlike⟩ := hcarries.like c ctx hctx hloaded
      have hsame := hs.distinct c d old home hold hhome (hlike.id_eq.symm.trans hid)
      exact hown ⟨hsame, hsame ▸ hloaded⟩

/-- Two contexts are loaded from one image. After the second has got bytes of its own, a
reference made from it before still works with it, and not with the first. -/
theorem reference_of_second_twin_is_refused_by_first :
    let bytes : List UInt8 :=
      [0x53, 0x54, 0x52, 0x44, 1, 0, 1, 1, 1, 0, 0, 0, 0, 0, 0, 0, 19, 0, 1, 0x00]
    let steps : List Step :=
      [⟨.program (.load "first" bytes true {}), none, none⟩,
        ⟨.program (.load "second" bytes true {}), none, none⟩]
    let later : List Step := [⟨.program (.own "second"), none, none⟩]
    let s := ((start .w64).performAll steps).2
    let s' := (s.performAll later).2
    (loadedNames (steps ++ later)).length < 2 ^ 32 - 1 ∧
      ∃ ref, (ProgramCommand.reference "second" ⟨1⟩).perform s = .ok (.value ref) s ∧
        s'.CallsUnit "second" ref ⟨1⟩ ∧ s'.RefusesUnit "first" ref ⟨1⟩ := by
  intro bytes steps later s s'
  have hloads : (loadedNames (steps ++ later)).length < 2 ^ 32 - 1 := by
    have hnames : loadedNames (steps ++ later) = ["first", "second"] := rfl
    rw [hnames]
    decide
  have hmint : (ProgramCommand.reference "second" ⟨1⟩).perform s =
      .ok (.value (.unit ⟨⟨1⟩, ⟨2⟩⟩)) s := rfl
  have hworks := unit_reference_works_with_own_context_only .w64 steps later hloads _ _ _ _ hmint
  have hnone : loadedNames (((start .w64).performAll steps).2.performed later) = [] := by
    have hfewer := s.length_loadedNames_performed_le later
    exact List.length_eq_zero_iff.mp (Nat.le_zero.mp hfewer)
  rw [hnone] at hworks
  refine ⟨hloads, _, hmint, ?_, ?_⟩
  · have hsecond := hworks "second"
    rw [if_pos ⟨rfl, List.not_mem_nil⟩] at hsecond
    exact hsecond
  · have hfirst := hworks "first"
    rw [if_neg (by simp)] at hfirst
    exact hfirst

end Session

end ScriptCore
