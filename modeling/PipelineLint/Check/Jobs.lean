import PipelineLint.Check.Steps
import PipelineLint.Check.Executors
import PipelineLint.Check.Usage

/-! # Jobs

The type, the steps, the use, the executor, the parallelism and the retention of a job.
-/

namespace PipelineLint.Check

def parallelismHelp : String := "https://circleci.com/docs/parallelism-faster-jobs/"

def jobType (j : Job) : List Diagnostic :=
  match j.type with
  | none => []
  | some type =>
    if Reference.hasSubstitution type.text then []
    else if !Catalog.jobTypes.contains type.text then
      [.error .invalidJobType type.range ("Invalid job type '" ++ type.text ++ "'. Allowed types: " ++
        ", ".intercalate Catalog.jobTypes)]
    else if type.text == "build" then
      [({ severity := .hint, range := type.range
          message := "If no `type:` key is specified, the job will default to `type: build`." } :
        Diagnostic).withTag .unnecessary]
    else []

/-- Finds steps that a job of its type does not run. -/
def ignoredSteps (j : Job) : List Diagnostic :=
  if Catalog.steplessJobTypes.contains j.typeWord && !j.steps.isEmpty then
    [.warning .ignoredConfiguration j.stepsRange
      "If job type is approval, no-op or release, then steps will be ignored."]
  else []

/-- Finds a job that nothing uses. -/
def unusedJob (s : Scope) (j : Job) : List Diagnostic :=
  if !s.isLocalOrb && s.settings.findsUnused && !isJobUsed s.document j.name then
    [unused .warning "Job is unused" j.nameRange]
  else []

/-- Finds a job that seems to test something and stores no results. -/
def untoldResults (j : Job) : List Diagnostic :=
  if Text.occurs "test".toList j.name.toList && !j.storesTestResults then
    [{ severity := .hint, range := j.nameRange
       message := "You may want to add the `store_test_results` step to visualize the test results in " ++
        "CircleCI" }]
  else []

def parallelism (j : Job) : List Diagnostic :=
  if j.parallelism == some 0 || j.parallelism == some 1 then
    [({ severity := .warning, range := j.parallelismRange
        message := "To benefit from parallelism, you should select a value greater than 1. You can read " ++
          "more about how to leverage parallelism to speed up pipelines in the CircleCI docs." } :
      Diagnostic).withHelp parallelismHelp]
  else []

/-- Checks how long caches are kept. -/
def retention (j : Job) : List Diagnostic :=
  match j.retention with
  | none => []
  | some r =>
    if r.hasValidCaches then []
    else [.error .invalidRetention ((r.caches.map (·.range)).getD r.range)
      "Retention caches duration must be between 1d and 15d"]

/-- Checks an executor that is given by a parameter: its default must exist. -/
def executorParameter (s : Scope) (j : Job) (use : ExecutorUse) : List Diagnostic :=
  match s.referenced? j.parameters use.name with
  | none => []
  | some p => match p.type with
    | .executor default =>
      match default, p.isOptional with
      | some name, true =>
        if s.settings.usesDefaultHost && !s.hasExecutor name && !s.isFromUnknownOrb name then
          [.error .undefinedExecutor use.range
            ("Parameter is used as executor but executor `" ++ name ++ "` does not exist.")]
        else []
      | _, _ => [{ severity := .warning, range := use.range
                   message := "No default value specified for parameter `" ++ p.name ++ "`." }]
    | _ => []

def foreignExecutor (s : Scope) (j : Job) (use : ExecutorUse) : List Notice :=
  match s.isOrbName use.name, splitOrbName use.name with
  | true, some (orb, entity) => match s.orbInfo? orb with
    | some info => match info.executors.get? entity with
      | some found => call s j.parameters use.name use.range found.parameters use.parameters
      | none => [.finding (.error .undefinedExecutor use.nameRange
          ("Cannot find executor " ++ entity ++ " in orb " ++ orb))]
    | none => match s.failures.get? orb with
      | some failure => [.finding (.warning .orbUnavailable use.nameRange
          ("Invalid orb or error trying to fetch it: " ++ failure.message))]
      | none => []
  | _, some (orb, _) => [.finding (.error .undefinedOrb use.nameRange
      ("Cannot find orb \"" ++ orb ++ "\". Looking for executor named \"" ++ use.name ++ "\"."))]
  | _, none => [.finding (.error .undefinedExecutor use.nameRange
      ("Executor \"" ++ use.name ++ "\" does not exist"))]

def jobExecutor (s : Scope) (j : Job) (use : ExecutorUse) : List Notice :=
  if Reference.isOnly use.name then (executorParameter s j use).map .finding
  else if use.name.isEmpty || Reference.hasSubstitution use.name then []
  else match s.document.executors.get? use.name with
    | some found => call s j.parameters use.name use.range found.parameters use.parameters
    | none => foreignExecutor s j use

def job (s : Scope) (j : Job) : List Notice :=
  (jobType j).map .finding ++ steps s j.parameters j.steps ++
    (ignoredSteps j ++ unusedJob s j ++ untoldResults j).map .finding ++
    (match j.executor with | some use => jobExecutor s j use | none => []) ++
    (parallelism j ++ retention j).map .finding ++
    (match j.inlineExecutor with | some e => executor s e | none => [])

def jobs (s : Scope) : List Notice := s.document.jobs.values.flatMap (job s)

/-- Finds a command of a local orb that nothing uses. A command of a configuration may be there for later. -/
def unusedCommand (s : Scope) (c : Command) : List Diagnostic :=
  match s.enclosing with
  | some enclosing =>
    if s.settings.findsUnused && !isOrbCommandUsed enclosing s.document c.name then
      [unused .warning "Command is unused" c.nameRange]
    else []
  | none => []

def commands (s : Scope) : List Notice :=
  s.document.commands.values.flatMap fun c =>
    steps s c.parameters c.steps ++ (unusedCommand s c).map .finding

end PipelineLint.Check
