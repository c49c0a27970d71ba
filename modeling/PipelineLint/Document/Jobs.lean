import PipelineLint.Document.Parameters

/-! # Reading commands, jobs and workflows -/

namespace PipelineLint.Read

open Yaml

variable (v : View)

def commandField (command : Command) (p : Pair) : Reads Command :=
  match p.value with
  | none => pure command
  | some value =>
    match v.keyText p with
    | "description" =>
      pure { command with description := some (v.text value), descriptionRange := p.range }
    | "steps" => do
      let steps ← readSteps v value
      pure { command with steps, stepsRange := value.range }
    | "parameters" => do
      let parameters ← parameters v value
      pure { command with parameters, parametersRange := value.range }
    | _ => pure command

/-- Reads a command; one whose body is no mapping is left out. -/
def command (p : Pair) : Reads (Option Command) :=
  match p.key, p.value.bind v.mapping? with
  | some key, some mapping => do
    let bare : Command := { name := v.text key, nameRange := key.range, range := p.range }
    let read ← Reads.through (commandField v) bare (v.pairs mapping)
    pure (some read)
  | _, _ => pure none

/-- Reads the commands of a configuration; those without a name are left out. -/
def commands (n : Node) : Reads (NameMap Command) :=
  Reads.through (fun found p => do
    match ← command v p with
    | some c =>
      if c.name.isEmpty then pure found
      else insertFirst found c.name c (·.nameRange) "Command already defined"
    | none => pure found) ∅ (v.pairs n)

/-- Adds a field to a job, except for what it runs on. -/
def jobField (job : Job) (p : Pair) : Reads Job :=
  let key := v.keyText p
  if key = "executor" then do
    let use ← executorUse v p
    pure { job with executor := some use }
  else match p.value with
    | none => pure job
    | some value =>
      let text := v.text value
      match key with
      | "type" => pure { job with type := some (v.located value) }
      | "description" => pure { job with description := some text }
      | "shell" => pure { job with shell := some text }
      | "working_directory" => pure { job with workingDirectory := some text }
      | "parallelism" =>
        match Text.signed? 8 text.toList with
        | some n => pure { job with parallelism := some n, parallelismRange := p.range }
        | none => pure job
      | "resource_class" =>
        pure { job with resourceClass := some text, resourceClassRange := p.range }
      | "steps" => do
        let steps ← readSteps v value
        pure { job with steps, stepsRange := p.range }
      | "parameters" => do
        let parameters ← parameters v value
        pure { job with parameters, parametersRange := p.range }
      | "environment" => pure { job with environment := environment v value }
      | "retention" => pure { job with retention := some (retention v value) }
      | "circleci_ip_ranges" => pure { job with ipRanges := text == "true" }
      | _ => pure job

/-- The body of a job tells what it runs on. -/
def hasInlineExecutor (ps : List Pair) : Bool :=
  ps.any fun p => p.value.isSome && executorFamilies.contains (v.keyText p)

/-- Reads a job; one whose body is no mapping is left out. -/
def job (p : Pair) : Reads (Option Job) :=
  match p.key, p.value.bind v.mapping? with
  | some key, some mapping => do
    let bare : Job := { name := v.text key, nameRange := key.range, range := p.range }
    let fields := v.pairs mapping
    let read ← Reads.through (jobField v) bare fields
    if hasInlineExecutor v fields then
      let own := inlineExecutor v mapping
      let named : Executor :=
        { own with
          parameters := read.parameters, parametersRange := read.parametersRange
          name := read.name, nameRange := read.nameRange, range := read.range }
      pure (some { read with inlineExecutor := some named })
    else pure (some read)
  | _, _ => pure none

def jobs (n : Node) : Reads (NameMap Job) :=
  Reads.through (fun found p => do
    match ← job v p with
    | some j => insertFirst found j.name j (·.nameRange) "Job already defined"
    | none => pure found) ∅ (v.pairs n)

/-- Reads the requirements of an item: a name, or names with the statuses to wait for. -/
def requirementsOf (i : Item) : List Requirement :=
  match i.value with
  | none => []
  | some value =>
    match v.mapping? value with
    | none => [.onSuccess ⟨v.text value, i.range⟩]
    | some mapping => (v.pairs mapping).map fun p =>
        let name : Located := ⟨v.keyText p, p.keyRange⟩
        match p.value with
        | none => ⟨name, [], p.openRange, true⟩
        | some status => ⟨name, v.locatedTexts status, status.range, true⟩

def requirements (n : Node) : List Requirement := (v.items n).flatMap (requirementsOf v)

/-- Adds a field to a job of a workflow. A key without a meaning of its own is a parameter. -/
def jobUseField (use : JobUse) (p : Pair) : Reads JobUse :=
  match p.value with
  | none => pure use
  | some value =>
    match v.keyText p with
    | "" => pure use
    | "type" => pure { use with type := some (v.located value) }
    | "requires" => pure { use with requires := requirements v value, requiresRange := p.range }
    | "name" => pure { use with stepName := v.text value, stepNameRange := value.range }
    | "context" => pure { use with contexts := v.locatedTexts value }
    | "filters" | "branches" | "tags" => pure use
    | "matrix" =>
      match v.field? value "parameters" with
      | none => pure { use with hasMatrix := true }
      | some inner => do
        let matrix ← readAssignments v inner
        pure { use with hasMatrix := true, matrix }
    | "pre-steps" => do
      let preSteps ← readSteps v value
      pure { use with preSteps, preStepsRange := p.range }
    | "post-steps" => do
      let postSteps ← readSteps v value
      pure { use with postSteps, postStepsRange := p.range }
    | "max_auto_reruns" => pure { use with maxAutoReruns := some (v.located value) }
    | "serial-group" => pure { use with serialGroup := some (v.located value) }
    | _ => do
      match ← readAssignment v p with
      | some a => pure { use with parameters := use.parameters.insert a }
      | none => pure use

/-- Reads a job of a workflow: a name, or a name with a body. -/
def jobUse (i : Item) : Reads JobUse :=
  let named := fun (name : String) (range : Range) =>
    ({ range := i.range, jobName := name, jobNameRange := range, stepName := name
       stepNameRange := range } : JobUse)
  match i.value with
  | none => pure { range := i.range, jobNameRange := i.markerRange }
  | some value =>
    match v.mapping? value with
    | none => pure (named (v.text value) value.range)
    | some mapping =>
      match (v.pairs mapping).head? with
      | none => pure { range := i.range }
      | some first =>
        let bare := named (v.keyText first) first.keyRange
        match first.value with
        | none => pure bare
        | some body => Reads.through (jobUseField v) bare (v.pairs body)

/-- For each required name the jobs that require it, in the order of the requirements. -/
def dependenciesOf (uses : List JobUse) : NameMap (List String) :=
  (uses.flatMap fun use => use.requires.map fun r => (r.name.text, use.stepName)).foldl
    (fun found (required, name) =>
      found.insert required ((found.get? required).getD [] ++ [name])) ∅

def workflowField (workflow : Workflow) (p : Pair) : Reads Workflow :=
  match p.value with
  | none => pure workflow
  | some value =>
    match v.keyText p with
    | "jobs" => do
      let uses ← Reads.each (jobUse v) (v.items value)
      pure { workflow with jobs := workflow.jobs ++ uses, jobsRange := p.range }
    | "triggers" => pure { workflow with hasTriggers := true, triggersRange := p.range }
    | _ => pure workflow

/-- Reads a workflow; one without a value is left out. -/
def workflow (p : Pair) : Reads (Option Workflow) :=
  match p.key, p.value with
  | some key, some value => do
    let bare : Workflow := { name := v.text key, nameRange := key.range, range := p.range }
    let read ← Reads.through (workflowField v) bare (v.pairs value)
    pure (some { read with dependencies := dependenciesOf read.jobs })
  | _, _ => pure none

def workflowVersionEnd : Float := 2.1

def workflows (version : Float) (n : Node) : Reads (NameMap Workflow) :=
  Reads.through (fun found p => do
    if v.keyText p = "version" then
      if version >= workflowVersionEnd then
        Reads.note ((Diagnostic.warning .deprecatedKey p.range
          "Version key is deprecated since 2.1").withAction
          (.replace "Delete version key" p.range ""))
      pure found
    else match ← workflow v p with
      | some w => insertFirst found w.name w (·.nameRange) "Workflow already defined"
      | none => pure found) ∅ (v.pairs n)

end PipelineLint.Read
