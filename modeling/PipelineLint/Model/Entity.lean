import PipelineLint.Model.Step
import PipelineLint.Docker.Image
import PipelineLint.Version

/-! # Entities

What a configuration declares: parameters, executors, commands, jobs, workflows and orbs. Each entity
knows its place and the places of the parts that findings point at; a part that is absent is nowhere.
-/

namespace PipelineLint

/-- The types of parameters with what belongs to each. A default of the right form is kept. -/
inductive ParameterType where
  | string (default : Option String)
  | boolean (default : Option Bool)
  | integer (default : Option Int)
  | enum (default : Option String) (values : List String) (valuesRange : Range)
  | executor (default : Option String)
  | steps (default : List Step)
  | envVarName (default : Option String)
  deriving Inhabited

namespace ParameterType

def word : ParameterType → String
  | .string _ => "string"
  | .boolean _ => "boolean"
  | .integer _ => "integer"
  | .enum .. => "enum"
  | .executor _ => "executor"
  | .steps _ => "steps"
  | .envVarName _ => "env_var_name"

def ofWord? : String → Option ParameterType
  | "string" => some (.string none)
  | "boolean" => some (.boolean none)
  | "integer" => some (.integer none)
  | "enum" => some (.enum none [] {})
  | "executor" => some (.executor none)
  | "steps" => some (.steps [])
  | "env_var_name" => some (.envVarName none)
  | _ => none

end ParameterType

structure Parameter where
  name : String
  nameRange : Range := {}
  range : Range := {}
  typeRange : Range := {}
  description : Option String := none
  /-- A default is given, so that calls may leave the parameter out. -/
  hasDefault : Bool := false
  defaultRange : Range := {}
  type : ParameterType
  deriving Inhabited

namespace Parameter

def isOptional (p : Parameter) : Bool := p.hasDefault

def defaultText? (p : Parameter) : Option String :=
  match p.type with
  | .string d | .enum d .. | .executor d | .envVarName d => d
  | .boolean d => d.map fun value => if value then "true" else "false"
  | .integer d => d.map toString
  | .steps _ => none

def enumValues? (p : Parameter) : Option (List String) :=
  match p.type with
  | .enum _ values _ => some values
  | _ => none

/-- The default of an enum parameter that is none of its values. -/
def strayDefault? (p : Parameter) : Option (String × List String) :=
  match p.type with
  | .enum (some d) values _ => if values.contains d then none else some (d, values)
  | _ => none

end Parameter

abbrev Parameters := NameMap Parameter

structure Credentials where
  name : String
  secret : String
  deriving DecidableEq, Repr, Inhabited

/-- A Docker image of an executor. -/
structure ImageSpec where
  range : Range := {}
  image : Docker.Image := {}
  imageRange : Range := {}
  name : Option String := none
  entrypoint : List String := []
  command : List String := []
  user : Option String := none
  environment : Environment := {}
  auth : Option Credentials := none
  awsAuth : Option Credentials := none
  deriving Repr, Inhabited

namespace ImageSpec

/-- The image can be looked up: it is well formed and needs no credentials. -/
def isCheckable (s : ImageSpec) : Bool :=
  !s.image.name.isEmpty && s.auth.isNone && s.awsAuth.isNone

end ImageSpec

structure Machine where
  image : String := ""
  imageRange : Range := {}
  layerCaching : Bool := false
  /-- The machine is written `machine: true`. -/
  isDeprecated : Bool := false
  range : Range := {}
  deriving Repr, Inhabited

inductive ExecutorKind where
  | docker (images : List ImageSpec)
  | machine (machine : Machine)
  | macos (xcode : String) (xcodeRange : Range)
  | windows (image : String) (imageRange : Range)
  /-- Nothing is said. -/
  | incomplete
  deriving Repr, Inhabited

namespace ExecutorKind

def family : ExecutorKind → String
  | .docker _ => "docker"
  | .machine _ => "machine"
  | .macos .. => "macos"
  | .windows .. => "windows"
  | .incomplete => ""

def isIncomplete : ExecutorKind → Bool
  | .incomplete => true
  | _ => false

def images : ExecutorKind → List ImageSpec
  | .docker images => images
  | _ => []

end ExecutorKind

/-- A place where jobs run. -/
structure Executor where
  name : String := ""
  nameRange : Range := {}
  range : Range := {}
  description : Option String := none
  resourceClass : String := ""
  resourceClassRange : Range := {}
  shell : Option String := none
  workingDirectory : Option String := none
  environment : Environment := {}
  parameters : Parameters := ∅
  parametersRange : Range := {}
  kind : ExecutorKind := .incomplete
  deriving Inhabited

structure Command where
  name : String
  nameRange : Range := {}
  range : Range := {}
  description : Option String := none
  descriptionRange : Range := {}
  steps : List Step := []
  stepsRange : Range := {}
  parameters : Parameters := ∅
  parametersRange : Range := {}
  contexts : List String := []
  deriving Inhabited

/-- The executor that a job names. -/
structure ExecutorUse where
  name : String := ""
  nameRange : Range := {}
  range : Range := {}
  parameters : Assignments := []
  deriving Inhabited

/-- How long things that a job stores are kept. -/
structure Retention where
  range : Range := {}
  caches : Option Located := none
  deriving Repr, Inhabited

namespace Retention

/-- The least number of days that caches are kept. -/
def minCacheDays : Nat := 1

/-- The greatest number of days that caches are kept. -/
def maxCacheDays : Nat := 15

/-- The text is empty, or a number of days with the letter `d` after it. -/
def isDuration (text : String) : Bool :=
  text.isEmpty || match text.toList.reverse with
    | 'd' :: days =>
      (Text.unsigned? 32 days.reverse).any fun n => minCacheDays ≤ n && n ≤ maxCacheDays
    | _ => false

/-- The time that caches are kept is absent or well formed. -/
def hasValidCaches (r : Retention) : Bool :=
  match r.caches with
  | none => true
  | some caches => isDuration caches.text

end Retention

structure Job where
  name : String
  nameRange : Range := {}
  range : Range := {}
  type : Option Located := none
  description : Option String := none
  shell : Option String := none
  workingDirectory : Option String := none
  parallelism : Option Int := none
  parallelismRange : Range := {}
  resourceClass : Option String := none
  resourceClassRange : Range := {}
  steps : List Step := []
  stepsRange : Range := {}
  executor : Option ExecutorUse := none
  inlineExecutor : Option Executor := none
  parameters : Parameters := ∅
  parametersRange : Range := {}
  environment : Environment := {}
  retention : Option Retention := none
  ipRanges : Bool := false
  contexts : List String := []
  deriving Inhabited

namespace Job

def noParallelism : Int := -1

def hasParallelism (j : Job) : Bool :=
  j.parallelism.any (· != noParallelism)

/-- The type of a job; `build` where none is given. -/
def typeWord (j : Job) : String := (j.type.map (·.text)).getD "build"

def storesTestResults (j : Job) : Bool := j.steps.any (·.name == "store_test_results")

end Job

/-- A job that another job of a workflow waits for. -/
structure Requirement where
  name : Located
  statuses : List Located
  statusRange : Range := {}
  /-- The statuses are written out. -/
  explicit : Bool
  deriving DecidableEq, Repr, Inhabited

namespace Requirement

/-- Waits for success, without saying so. -/
def onSuccess (name : Located) : Requirement := ⟨name, [⟨"success", {}⟩], {}, false⟩

end Requirement

structure JobUse where
  range : Range := {}
  jobName : String := ""
  jobNameRange : Range := {}
  /-- The name of the job in its workflow. -/
  stepName : String := ""
  stepNameRange : Range := {}
  requires : List Requirement := []
  requiresRange : Range := {}
  contexts : List Located := []
  type : Option Located := none
  parameters : Assignments := []
  preSteps : List Step := []
  preStepsRange : Range := {}
  postSteps : List Step := []
  postStepsRange : Range := {}
  hasMatrix : Bool := false
  matrix : Assignments := []
  maxAutoReruns : Option Located := none
  serialGroup : Option Located := none
  deriving Inhabited

/-- A workflow: jobs and the order they run in. -/
structure Workflow where
  name : String
  nameRange : Range := {}
  range : Range := {}
  jobs : List JobUse := []
  jobsRange : Range := {}
  hasTriggers : Bool := false
  triggersRange : Range := {}
  /-- For each required name the jobs that require it. -/
  dependencies : NameMap (List String) := ∅
  deriving Inhabited

namespace Workflow

def job? (w : Workflow) (stepName : String) : Option JobUse :=
  w.jobs.find? (·.stepName == stepName)

end Workflow

/-- What identifies an orb: a name and a version, or a body in the same text. The name of an orb in a registry
holds no `@`, so that its name and its version can be told from both in one text. -/
structure OrbUrl where
  name : String := ""
  version : String := ""
  isLocal : Bool := false
  sign_notMem : isLocal = false → '@' ∉ name.toList := by simp
  deriving DecidableEq, Repr, Inhabited

namespace OrbUrl

/-- Reads `name@version`; without a version the newest one is meant. -/
def parse (text : String) : OrbUrl :=
  match h : Text.cut? ['@'] text.toList with
  | some (name, version) =>
    { name := String.ofList name, version := String.ofList version
      sign_notMem := fun _ => by simpa using Text.notMem_of_cut?_eq_some h }
  | none =>
    { name := text, version := Version.volatile, sign_notMem := fun _ => Text.notMem_of_cut?_eq_none h }

/-- The name and the version in one text. -/
def id (u : OrbUrl) : String := u.name ++ "@" ++ u.version

end OrbUrl

/-- An orb that a configuration declares. -/
structure OrbUse where
  name : String := ""
  nameRange : Range := {}
  range : Range := {}
  url : OrbUrl := {}
  versionRange : Range := {}
  valueRange : Range := {}
  deriving DecidableEq, Repr, Inhabited

structure OrbInfo where
  id : String := ""
  version : String := ""
  source : String := ""
  description : Option String := none
  commands : NameMap Command := ∅
  jobs : NameMap Job := ∅
  executors : NameMap Executor := ∅
  pipelineParameters : Parameters := ∅
  isLocal : Bool := false
  /-- The newest versions: of all, of the same major number, of the same minor number. -/
  latest : Option String := none
  latestMinor : Option String := none
  latestPatch : Option String := none
  deriving Inhabited

namespace OrbInfo

/-- The parameters of a command, or else of a job. -/
def parametersOf? (o : OrbInfo) (name : String) : Option Parameters :=
  match o.commands.get? name with
  | some command => some command.parameters
  | none => (o.jobs.get? name).map (·.parameters)

end OrbInfo

end PipelineLint
