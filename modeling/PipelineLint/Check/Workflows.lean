import PipelineLint.Check.Steps
import PipelineLint.Check.Cycles

/-! # Workflows

The jobs that workflows use must exist, get the parameters they need, and wait for jobs of the same workflow.
-/

namespace PipelineLint.Check

def approvalType : String := "approval"

def globalContext : String := "org-global"

def matrixValue (s : Scope) (entity : String) (declared : Parameters) (a : Assignment) : List Notice :=
  match declared.get? a.name with
  | none => [.finding (undeclared a.name entity a.range)]
  | some p => match a.value with
    | .list items => items.flatMap (assignment s ∅ p entity)
    | .alias _ => []
    | _ => [.finding (.error .typeMismatch a.valueRange
        ("Parameter " ++ a.name ++ " is not an enum of values"))]

def jobUseParameters (s : Scope) (use : JobUse) (declared : Parameters) : List Notice :=
  (missing declared use.jobName use.jobNameRange fun name =>
    Assignments.contains use.parameters name || Assignments.contains use.matrix name).map .finding ++
  values s ∅ use.jobName declared use.parameters ++
  use.matrix.flatMap (matrixValue s use.jobName declared)

/-- Finds statuses that are unknown or listed again. `seen` are the texts before. -/
def statuses (seen : List String) : List Located → List Diagnostic
  | [] => []
  | status :: rest =>
    (if Catalog.requireStatuses.contains status.text || Reference.hasSubstitution status.text then []
      else [.error .invalidValue status.range ("Invalid status \"" ++ status.text ++
        "\". Expected one of: " ++ ", ".intercalate Catalog.requireStatuses)]) ++
    (if seen.contains status.text then
      [({ severity := .hint, range := status.range
          message := "Status `" ++ status.text ++ "` is listed more than once" } :
        Diagnostic).withTag .unnecessary]
      else []) ++
    statuses (status.text :: seen) rest

def isDeclaredIn (w : Workflow) (name : String) : Bool :=
  w.jobs.any fun use => use.stepName == name || use.jobName == name

/-- Checks a job that another one waits for. -/
def requirement (w : Workflow) (r : Requirement) : List Diagnostic :=
  let name := r.name.text
  (if isDeclaredIn w name || Reference.isPartialMatrix name || Reference.hasSubstitution name then []
    else [.error .undefinedRequirement r.name.range
      ("Cannot find declaration for job reference " ++ name)]) ++
  statuses [] r.statuses ++
  if r.explicit && r.statuses.map (·.text) == ["success"] then
    [({ severity := .hint, range := r.statusRange
        message := "`success` is the default status and can be omitted" } :
      Diagnostic).withTag .unnecessary]
  else []

def jobReruns (count : Located) : List Diagnostic :=
  if Reference.hasSubstitution count.text || isRerunCount count.text then []
  else [.error .invalidValue count.range rerunCountMessage]

/-- Checks a context against those of the organization, which are known only with a token. -/
def context (s : Scope) (c : Located) : List Diagnostic :=
  if !s.settings.isLoggedIn || c.text == globalContext || Reference.hasSubstitution c.text ||
      s.settings.contexts.contains c.text then []
  else [.error .undefinedContext c.range ("Context " ++ c.text ++ " does not exist")]

def jobName (s : Scope) (use : JobUse) : List Notice :=
  if s.document.jobs.contains use.jobName || s.isOrbJob use.jobName then
    match s.definedParameters? use.jobName with
    | some declared => jobUseParameters s use declared
    | none => []
  else [.finding (.error .undefinedJob use.jobNameRange ("Cannot find declaration for job " ++ use.jobName))]

/-- Checks a job that a workflow uses. An approval is no job of the configuration. -/
def jobUse (s : Scope) (w : Workflow) (use : JobUse) : List Notice :=
  if use.jobName.isEmpty || s.isFromUnknownOrb use.jobName then []
  else if use.type.any (·.text == approvalType) then []
  else
    (match use.type with
      | some type => [.finding (.error .invalidValue type.range "Type can only be \"approval\"")]
      | none => []) ++
    jobName s use ++
    (use.requires.flatMap (requirement w)).map .finding ++
    ((use.maxAutoReruns.toList.flatMap jobReruns) ++ use.contexts.flatMap (context s)).map .finding ++
    steps s ∅ use.preSteps ++ steps s ∅ use.postSteps

def workflows (s : Scope) : List Notice :=
  (s.document.workflows.values.flatMap fun w => w.jobs.flatMap (jobUse s w)) ++ cycles s

end PipelineLint.Check
