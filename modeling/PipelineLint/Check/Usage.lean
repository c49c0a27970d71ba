import PipelineLint.Check.Scope

/-! # Unused things

A definition is used where something refers to it: a job from a workflow or from the steps of a job, a command
of a local orb from inside the orb or from the document around it, an orb from a step, an executor or a
workflow, an anchor from an alias.
-/

namespace PipelineLint.Check

/-- Some step satisfies `p`, also of those inside the values of steps. -/
def anyStep (p : Step → Bool) (steps : List Step) : Bool :=
  steps.any fun s => s.walk.any p

def commandSteps (d : Document) : List (List Step) := d.commands.values.map (·.steps)

def jobSteps (d : Document) : List (List Step) := d.jobs.values.map (·.steps)

def jobUses (d : Document) : List JobUse := d.workflows.values.flatMap (·.jobs)

/-- The steps that the workflows of a document put around jobs. -/
def aroundSteps (d : Document) : List (List Step) :=
  (jobUses d).flatMap fun use => [use.preSteps, use.postSteps]

/-- A finding about something that is not used. -/
def unused (severity : Severity) (message : String) (range : Range) : Diagnostic :=
  ({ severity, code := some .unused, message, range } : Diagnostic).withTag .unnecessary

/-- A workflow or the step of a job refers to a job. -/
def isJobUsed (d : Document) (name : String) : Bool :=
  (jobSteps d).any (anyStep (·.name == name)) || (jobUses d).any (·.jobName == name)

/-- A step refers to a command of a local orb: inside the orb by its name, outside by the name of the orb and
its own. -/
def isOrbCommandUsed (enclosing : Enclosing) (d : Document) (name : String) : Bool :=
  let outside := enclosing.document
  (commandSteps d ++ jobSteps d).any (anyStep (·.name == name)) ||
    (commandSteps outside ++ jobSteps outside ++ aroundSteps outside).any
      (anyStep (·.name == enclosing.orb ++ "/" ++ name))

def isStepOfOrb (orb : String) (st : Step) : Bool :=
  match Text.cut? ['/'] st.name.toList with
  | some (start, _) => String.ofList start == orb
  | none => false

/-- A step, an executor or a workflow refers to an orb. -/
def isOrbUsed (d : Document) (orb : String) : Bool :=
  (jobSteps d ++ commandSteps d ++ aroundSteps d).any (anyStep (isStepOfOrb orb)) ||
    d.jobs.values.any (fun j => j.executor.any fun use => d.isNameOfOrb use.name orb) ||
    (jobUses d).any fun use => d.isNameOfOrb use.jobName orb

/-- Finds the anchors that no alias refers to. -/
def anchors (s : Scope) : List Notice :=
  if s.settings.findsUnused then
    (s.document.anchors.table.values.filter (·.isUnused)).map fun a =>
      .finding (unused .information "Anchor never used" a.definition)
  else []

end PipelineLint.Check
