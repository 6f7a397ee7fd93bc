import ScriptCore.Proofs.Switch.Selection

/-!
# Falling through

Running a switch executes the bodies from the selected arm on, each once and in order. It
stops behind the first body that leaves or fails, or behind the last arm. What is executed
depends on the selected position and on the bodies alone: the labels of the arms behind it
are not looked at again.
-/

namespace ScriptCore.Switch

variable {α β ε σ : Type}

/-- Bodies executed one after another, each of which goes on to the next. -/
inductive Passes (exec : β → EStateM ε σ Flow) : List β → σ → σ → Prop
  | nil (s : σ) : Passes exec [] s s
  | cons {b : β} {bodies : List β} {s t u : σ} (next : exec b s = .ok .next t)
      (rest : Passes exec bodies t u) : Passes exec (b :: bodies) s u

/-- Of `bodies`, those in `executed` are executed from the state `s` on. Unless one of them
fails, the result is `answer`. -/
inductive Ends (exec : β → EStateM ε σ Flow) (answer : α) :
    (bodies executed : List β) → σ → EStateM.Result ε σ α → Prop
  | last {bodies : List β} {s t : σ} (passes : Passes exec bodies s t) :
      Ends exec answer bodies bodies s (.ok answer t)
  | leave {passed rest : List β} {b : β} {s t u : σ} (passes : Passes exec passed s t)
      (leaves : exec b t = .ok .leave u) :
      Ends exec answer (passed ++ b :: rest) (passed ++ [b]) s (.ok answer u)
  | fail {passed rest : List β} {b : β} {s t u : σ} {e : ε} (passes : Passes exec passed s t)
      (fails : exec b t = .error e u) :
      Ends exec answer (passed ++ b :: rest) (passed ++ [b]) s (.error e u)

/-- Executes a body and records it behind those that were executed before. -/
def recording (exec : β → EStateM ε σ Flow) (b : β) : EStateM ε (List β × σ) Flow := fun s =>
  match exec b s.2 with
  | .ok flow t => .ok flow (s.1 ++ [b], t)
  | .error e t => .error e (s.1 ++ [b], t)

/-- A result, with a record of bodies in its state. -/
def withRecord (record : List β) : EStateM.Result ε σ α → EStateM.Result ε (List β × σ) α
  | .ok a t => .ok a (record, t)
  | .error e t => .error e (record, t)

section

variable {exec : β → EStateM ε σ Flow} {answer : α} {arm : Arm β} {arms rest : List (Arm β)}
  {b : β} {bodies executed : List β} {s t : σ}

/-! ## One body -/

theorem runArms_next (h : exec arm.body s = .ok .next t) :
    runArms exec (arm :: rest) s = runArms exec rest t := by
  simp only [runArms, bind, EStateM.bind, h]

theorem runArms_leave (h : exec arm.body s = .ok .leave t) :
    runArms exec (arm :: rest) s = .ok () t := by
  simp only [runArms, bind, EStateM.bind, h]
  rfl

theorem runArms_fail {e : ε} (h : exec arm.body s = .error e t) :
    runArms exec (arm :: rest) s = .error e t := by
  simp only [runArms, bind, EStateM.bind, h]

theorem recording_of_ok {flow : Flow} (h : exec b s = .ok flow t) (record : List β) :
    recording exec b (record, s) = .ok flow (record ++ [b], t) := by
  simp only [recording, h]

theorem recording_of_error {e : ε} (h : exec b s = .error e t) (record : List β) :
    recording exec b (record, s) = .error e (record ++ [b], t) := by
  simp only [recording, h]

/-! ## All bodies -/

theorem Ends.cons {r : EStateM.Result ε σ α} (next : exec b s = .ok .next t)
    (h : Ends exec answer bodies executed t r) :
    Ends exec answer (b :: bodies) (b :: executed) s r := by
  cases h with
  | last passes => exact .last (.cons next passes)
  | leave passes leaves => exact .leave (.cons next passes) leaves
  | fail passes fails => exact .fail (.cons next passes) fails

theorem exists_ends_runArms (exec : β → EStateM ε σ Flow) (arms : List (Arm β)) (s : σ) :
    ∃ executed, Ends exec () (arms.map Arm.body) executed s (runArms exec arms s) := by
  induction arms generalizing s with
  | nil => exact ⟨[], .last (.nil s)⟩
  | cons arm rest ih =>
      cases h : exec arm.body s with
      | error e t =>
          rw [runArms_fail h]
          exact ⟨[arm.body], .fail (.nil s) h⟩
      | ok flow t =>
          cases flow with
          | leave =>
              rw [runArms_leave h]
              exact ⟨[arm.body], .leave (.nil s) h⟩
          | next =>
              obtain ⟨executed, hends⟩ := ih t
              rw [runArms_next h]
              exact ⟨arm.body :: executed, hends.cons h⟩

/-- Bodies that are passed do not decide the result. -/
theorem Passes.runArms_append {passed : List β} (h : Passes exec passed s t)
    (hbodies : arms.map Arm.body = passed ++ bodies) :
    ∃ rest, rest.map Arm.body = bodies ∧ runArms exec arms s = runArms exec rest t := by
  induction h generalizing arms with
  | nil s => exact ⟨arms, hbodies, rfl⟩
  | cons next _ ih =>
      obtain ⟨arm, others, rfl, rfl, hothers⟩ := List.map_eq_cons_iff.mp hbodies
      obtain ⟨rest, hrest, hrun⟩ := ih hothers
      exact ⟨rest, hrest, (runArms_next next).trans hrun⟩

/-- There is one way to end. -/
theorem Ends.runArms_eq {r : EStateM.Result ε σ Unit}
    (h : Ends exec () (arms.map Arm.body) executed s r) : runArms exec arms s = r := by
  -- The arms split where their bodies do, into those passed and the one that ends the run.
  generalize hbodies : arms.map Arm.body = bodies at h
  cases h with
  | last passes =>
      obtain ⟨rest, hrest, hrun⟩ := passes.runArms_append (hbodies.trans (List.append_nil _).symm)
      obtain rfl := List.map_eq_nil_iff.mp hrest
      exact hrun
  | leave passes leaves =>
      obtain ⟨rest, hrest, hrun⟩ := passes.runArms_append hbodies
      obtain ⟨arm, others, rfl, rfl, _⟩ := List.map_eq_cons_iff.mp hrest
      exact hrun.trans (runArms_leave leaves)
  | fail passes fails =>
      obtain ⟨rest, hrest, hrun⟩ := passes.runArms_append hbodies
      obtain ⟨arm, others, rfl, rfl, _⟩ := List.map_eq_cons_iff.mp hrest
      exact hrun.trans (runArms_fail fails)

theorem runArms_congr {others : List (Arm β)} (h : others.map Arm.body = arms.map Arm.body) :
    runArms exec others s = runArms exec arms s := by
  obtain ⟨executed, hends⟩ := exists_ends_runArms exec arms s
  rw [← h] at hends
  exact hends.runArms_eq

theorem Passes.recording (h : Passes exec bodies s t) (record : List β) :
    Passes (recording exec) bodies (record, s) (record ++ bodies, t) := by
  induction h generalizing record with
  | nil s =>
      rw [List.append_nil]
      exact .nil _
  | @cons b bodies _ _ _ next _ ih =>
      rw [List.append_cons]
      exact .cons (recording_of_ok next record) (ih (record ++ [b]))

/-- Recording the bodies records those executed, and changes nothing else. -/
theorem Ends.recording {r : EStateM.Result ε σ α} (h : Ends exec answer bodies executed s r)
    (record : List β) :
    Ends (recording exec) answer bodies executed (record, s)
      (withRecord (record ++ executed) r) := by
  cases h with
  | last passes => exact .last (passes.recording record)
  | @leave passed _ b _ _ _ passes leaves =>
      have hb := recording_of_ok leaves (record ++ passed)
      rw [List.append_assoc] at hb
      exact .leave (passes.recording record) hb
  | @fail passed _ b _ _ _ _ passes fails =>
      have hb := recording_of_error fails (record ++ passed)
      rw [List.append_assoc] at hb
      exact .fail (passes.recording record) hb

/-- What is answered behind the bodies is the result, unless one of them has failed. -/
theorem Ends.bind_pure {m : EStateM ε σ Unit} (h : Ends exec () bodies executed s (m s)) (a : α) :
    Ends exec a bodies executed s (EStateM.bind m (fun _ => pure a) s) := by
  rw [EStateM.bind]
  generalize m s = r at h
  cases h with
  | last passes => exact .last passes
  | leave passes leaves => exact .leave passes leaves
  | fail passes fails => exact .fail passes fails

end

/-! ## The switch -/

/-- How a switch runs from the selected position `i` on. -/
structure FallsThrough (arms : List (Arm β)) (v : Value) (i : Nat) (exec : β → EStateM ε σ Flow)
    (s : σ) : Prop where
  inside : i < arms.length
  /-- The bodies from the selected arm on are executed until one leaves or fails, and a record
  of what is executed shows these bodies and no others. -/
  executes : ∃ executed,
    Ends exec (some i) ((arms.drop i).map Arm.body) executed s ((ofArms arms).run v exec s) ∧
      ∀ record, (ofArms arms).run v (recording exec) (record, s) =
        withRecord (record ++ executed) ((ofArms arms).run v exec s)
  /-- Arms with the same bodies run alike from the same position, whatever their labels. -/
  unlabelled : ∀ (others : List (Arm β)) (w : Value), others.map Arm.body = arms.map Arm.body →
    (ofArms others).resolve w = some i → (ofArms others).run w exec s = (ofArms arms).run v exec s

section

variable {arms : List (Arm β)} {v : Value} {i : Nat}

theorem lt_length_of_resolve (hi : (ofArms arms).resolve v = some i) : i < arms.length := by
  have hfirst {p : Arm β → Prop} (first : Arm.FirstAt p arms i) : i < arms.length := by
    obtain ⟨⟨arm, harm, -⟩, -⟩ := first
    exact (List.getElem?_eq_some_iff.mp harm).1
  cases (resolve_eq_iff_selects arms v (some i)).mp hi with
  | labelled first => exact hfirst first
  | fallback _ first => exact hfirst first

theorem run_of_resolve_none (hnone : (ofArms arms).resolve v = none)
    (exec : β → EStateM ε σ Flow) (s : σ) : (ofArms arms).run v exec s = .ok none s := by
  simp only [run, hnone]
  rfl

theorem run_of_resolve (hi : (ofArms arms).resolve v = some i) (exec : β → EStateM ε σ Flow)
    (s : σ) : (ofArms arms).run v exec s =
      EStateM.bind (runArms exec (arms.drop i)) (fun _ => pure (some i)) s := by
  simp only [run, hi]
  rfl

theorem run_recording {executed : List β} {exec : β → EStateM ε σ Flow} {s : σ}
    (hi : (ofArms arms).resolve v = some i)
    (h : Ends exec () ((arms.drop i).map Arm.body) executed s (runArms exec (arms.drop i) s))
    (record : List β) : (ofArms arms).run v (recording exec) (record, s) =
      withRecord (record ++ executed) ((ofArms arms).run v exec s) := by
  rw [run_of_resolve hi, run_of_resolve hi, EStateM.bind, EStateM.bind,
    (h.recording record).runArms_eq]
  cases runArms exec (arms.drop i) s <;> rfl

theorem run_congr {others : List (Arm β)} {w : Value} (hi : (ofArms arms).resolve v = some i)
    (hw : (ofArms others).resolve w = some i) (h : others.map Arm.body = arms.map Arm.body)
    (exec : β → EStateM ε σ Flow) (s : σ) :
    (ofArms others).run w exec s = (ofArms arms).run v exec s := by
  have hdrop : (others.drop i).map Arm.body = (arms.drop i).map Arm.body := by
    rw [List.map_drop, List.map_drop, h]
  rw [run_of_resolve hi, run_of_resolve hw, EStateM.bind, EStateM.bind, runArms_congr hdrop]

end

/-- A switch that selects nothing executes nothing. One that selects an arm executes from
there on, whatever the bodies do to the state. -/
theorem run_falls_through (arms : List (Arm β)) (v : Value) (exec : β → EStateM ε σ Flow)
    (s : σ) :
    ((ofArms arms).resolve v = none → (ofArms arms).run v exec s = .ok none s) ∧
      ∀ i, (ofArms arms).resolve v = some i → FallsThrough arms v i exec s := by
  refine ⟨fun hnone => run_of_resolve_none hnone exec s, ?_⟩
  intro i hi
  obtain ⟨executed, hends⟩ := exists_ends_runArms exec (arms.drop i) s
  constructor
  case inside => exact lt_length_of_resolve hi
  case executes =>
    refine ⟨executed, ?_, run_recording hi hends⟩
    rw [run_of_resolve hi]
    exact hends.bind_pure (some i)
  case unlabelled =>
    intro others w hbodies hw
    exact run_congr hi hw hbodies exec s

-- The default arm in the middle is reached once both labels have failed, and falls through to
-- the arm behind it.
example :
    (ofArms [⟨some (.int 1), (0, .leave)⟩, ⟨none, (1, .next)⟩, ⟨some (.int 2), (2, .leave)⟩]).run
      (.int 7) (recording fun body : Nat × Flow => (pure body.2 : EStateM Empty Unit Flow))
      ([], ()) =
    .ok (some 1) ([(1, .next), (2, .leave)], ()) := by
  rfl

end ScriptCore.Switch
