import ScriptCore.Session.Container
import ScriptCore.Session.Program
import ScriptCore.Session.Scalar
import ScriptCore.Session.Storage

/-! # Sessions

A session performs a list of steps. A step is a command; it may store the value that the
command answers with in a variable, and it may show a variable as the step leaves it. A
failed step does not stop the session, but one without a result is its last.
-/

namespace ScriptCore

inductive Command where
  | scalar (c : ScalarCommand)
  | container (c : ContainerCommand)
  | storage (c : StorageCommand)
  | program (c : ProgramCommand)

def Command.perform : Command → Session.Act Reply
  | .scalar c => c.perform
  | .container c => c.perform
  | .storage c => c.perform
  | .program c => c.perform

/-- The value that a reply carries, if the command was made for its value. -/
def Reply.value? : Reply → Option Value
  | .value v => some v
  | .call (.ok v) _ _ => some v
  | _ => none

structure Step where
  command : Command
  /-- The variable that receives the value of the reply. -/
  into : Option String := none
  /-- The variable to show after the step. -/
  show? : Option String := none

/-- How a step ended, and the variable it shows. -/
structure Outcome where
  reply : Except Stop Reply
  shown : Option Value

namespace Session

/-- Stores the value of a reply in a variable. -/
def keep (s : Session) (into : Option String) (r : Reply) : Session :=
  match into, r.value? with
  | some name, some v => s.setVariable name v
  | _, _ => s

def perform (s : Session) (step : Step) : Outcome × Session :=
  match step.command.perform s with
  | .ok r s' =>
      let s' := s'.keep step.into r
      (⟨.ok r, step.show?.map s'.valueOf⟩, s')
  | .error e s' => (⟨.error e, step.show?.map s'.valueOf⟩, s')

def performAll (s : Session) : List Step → List Outcome × Session
  | [] => ([], s)
  | step :: rest =>
      let (outcome, s') := s.perform step
      if hasResult outcome.reply then
        let (outcomes, s'') := s'.performAll rest
        (outcome :: outcomes, s'')
      else ([outcome], s')

end Session

end ScriptCore
