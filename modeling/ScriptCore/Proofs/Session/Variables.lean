import ScriptCore.Proofs.Session.Moves

/-!
# Edits of one variable

Some steps do nothing but change the content of one variable, and what they do depends on
that content alone. A run of such steps is a walk through contents: the outcomes are those
of the single edits, and nothing else in the session changes.
-/

namespace ScriptCore

namespace Session

variable {s : Session} {x : String} {v w : Value}

theorem valueOf_setVariable_self : (s.setVariable x v).valueOf x = v := by
  rw [valueOf, setVariable, Dictionary.get?_insert_self, Option.getD_some]

theorem setVariable_setVariable : (s.setVariable x v).setVariable x w = s.setVariable x w := by
  rw [setVariable, setVariable, setVariable, Dictionary.insert_insert]

/-- A variable that holds anything but null has been set, so setting it again to what it holds
changes nothing. -/
theorem setVariable_of_valueOf (hx : s.valueOf x = v) (hv : v ≠ .null) : s.setVariable x v = s := by
  have hget : s.vars.get? x = some v := by
    rw [valueOf] at hx
    cases hfound : s.vars.get? x with
    | none =>
        rw [hfound] at hx
        exact absurd hx.symm hv
    | some u =>
        rw [hfound] at hx
        exact congrArg some hx
  rw [setVariable, Dictionary.insert_of_get? hget]

end Session

/-! ## Models of a variable -/

/-- A command that succeeds or fails as `r` says, and leaves the session `s`. -/
def answered (r : Except Stop Reply) (s : Session) :
    EStateM.Result Stop Session Reply :=
  match r with
  | .ok reply => .ok reply s
  | .error e => .error e s

/-- A kind of edits of a variable: what the variable holds in each state of a model, how an
edit changes that state, and how it is answered. -/
structure EditModel (ι κ : Type) where
  content : κ → Value
  next : κ → ι → κ
  reply : κ → ι → Except ScriptError Reply

namespace EditModel

variable {ι κ : Type}

/-- The outcomes of a run of edits, each with the variable as the edit has left it. -/
def outcomes (m : EditModel ι κ) (k : κ) : List ι → List Outcome
  | [] => []
  | edit :: rest =>
      ⟨raising (m.reply k edit), some (m.content (m.next k edit))⟩ :: m.outcomes (m.next k edit) rest

/-- In every session the commands do to the variable what the model says. -/
structure Describes (m : EditModel ι κ) (x : String) (command : ι → ContainerCommand) : Prop where
  content_ne_null : ∀ k, m.content k ≠ .null
  perform : ∀ (s : Session) k edit, s.valueOf x = m.content k →
    (command edit).perform s =
      answered (raising (m.reply k edit)) (s.setVariable x (m.content (m.next k edit)))

/-- A step that performs the command and shows the variable. -/
def step (x : String) (command : ι → ContainerCommand) (edit : ι) : Step :=
  ⟨.container (command edit), none, some x⟩

namespace Describes

variable {m : EditModel ι κ} {x : String} {command : ι → ContainerCommand}
  {s : Session} {k : κ}

theorem perform_step (h : m.Describes x command) (hx : s.valueOf x = m.content k) (edit : ι) :
    s.perform (step x command edit) =
      (⟨raising (m.reply k edit), some (m.content (m.next k edit))⟩,
        s.setVariable x (m.content (m.next k edit))) := by
  have hperform : (step x command edit).command.perform s = _ := h.perform s k edit hx
  rw [Session.perform, hperform]
  cases m.reply k edit <;>
    exact Prod.ext (congrArg (Outcome.mk _) (congrArg some Session.valueOf_setVariable_self)) rfl

/-- A run of edits has the outcomes of the model and leaves its last state in the variable. All
else in the session is as before. -/
theorem performAll (h : m.Describes x command) (hx : s.valueOf x = m.content k) (edits : List ι) :
    s.performAll (edits.map (step x command)) =
      (m.outcomes k edits, s.setVariable x (m.content (edits.foldl m.next k))) := by
  induction edits generalizing s k with
  | nil => exact congrArg _ (Session.setVariable_of_valueOf hx (h.content_ne_null k)).symm
  | cons edit rest ih =>
      -- What the first edit leaves in the variable, the rest replaces.
      have hrest := ih (s := s.setVariable x (m.content (m.next k edit)))
        Session.valueOf_setVariable_self
      rw [Session.setVariable_setVariable] at hrest
      rw [List.map_cons, Session.performAll, h.perform_step hx edit]
      simp only [hasResult_raising, if_true, hrest]
      rfl

end Describes

end EditModel

end ScriptCore
