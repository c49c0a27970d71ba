import PipelineLint.NameMap
import PipelineLint.Position
import PipelineLint.Reference

/-! # Steps and values

A step is something that a job or command does. A step that invokes a command assigns values to its
parameters, and values may hold steps again; `Step.walk` visits a step and all steps inside it.
-/

namespace PipelineLint

structure Environment where
  range : Range := {}
  values : NameMap Located := ∅
  deriving Repr, Inhabited

/-- A step that runs a shell command. -/
structure Run where
  range : Range := {}
  name : Option String := none
  command : String := ""
  /-- The command as written, with quotes or block indicator. -/
  rawCommand : String := ""
  commandRange : Range := {}
  shell : Option String := none
  background : Bool := false
  workingDirectory : Option String := none
  noOutputTimeout : Option String := none
  condition : Option Located := none
  environment : Environment := {}
  maxAutoReruns : Option Located := none
  autoRerunDelay : Option Located := none
  /-- The step is written with the key `deploy`. -/
  isDeploy : Bool := false
  deriving Repr, Inhabited

mutual
/-- A value given to a parameter. Assignments of one call have different names. -/
structure Assignment where
  name : String
  value : Value
  valueRange : Range
  range : Range
/-- The values that parameters can be given. -/
inductive Value where
  | text (text : String)
  | truth (value : Bool)
  | number (value : Int)
  | list (items : List Assignment)
  | steps (steps : List Step)
  | map (entries : List Assignment)
  /-- A scalar written as an alias; it is known by the name of its anchor. -/
  | alias (name : String)
/-- A step that invokes a command by name. -/
structure Invocation where
  name : String
  range : Range
  parameters : List Assignment
  parametersRange : Range
/-- A step of a job or command. -/
inductive Step where
  | named (call : Invocation)
  | run (run : Run)
  | checkout (range : Range) (path : String)
  | setupRemoteDocker (range : Range) (layerCaching : Bool) (version : Option String)
  | saveCache (range : Range) (name : Option String) (key : String) (paths : List String)
  | restoreCache (range : Range) (name key : Option String) (keys : List String)
  | storeArtifacts (range : Range) (path : String) (destination : Option String)
  | storeTestResults (range : Range) (path : String)
  | persistToWorkspace (range : Range) (root : String) (paths : List String)
  | attachWorkspace (range : Range) (target : String)
  | addSshKeys (range : Range) (fingerprints : List String)
  /-- A place where the steps given to a parameter go. -/
  | steps (range : Range) (name value : String) (valueRange : Range)
end

instance : Inhabited Step := ⟨.checkout {} "."⟩

instance : Inhabited Value := ⟨.text ""⟩

instance : Inhabited Assignment := ⟨⟨"", default, {}, {}⟩⟩

instance : Inhabited Invocation := ⟨⟨"", {}, [], {}⟩⟩

/-- The values given in one call, each under its own name. -/
abbrev Assignments := List Assignment

namespace Assignments

def get? (as : Assignments) (name : String) : Option Assignment :=
  as.find? (·.name == name)

def contains (as : Assignments) (name : String) : Bool :=
  as.any (·.name == name)

/-- Sets the value of its name; a name that has a value keeps its place. -/
def insert : Assignments → Assignment → Assignments
  | [], a => [a]
  | b :: as, a => if b.name == a.name then a :: as else b :: insert as a

end Assignments

namespace Value

def form : Value → String
  | .text _ => "string"
  | .truth _ => "boolean"
  | .number _ => "integer"
  | .list _ => "enum"
  | .steps _ => "steps"
  | .map _ => "map"
  | .alias _ => "alias"

def asText? : Value → Option String
  | .text s => some s
  | .alias name => some name
  | .truth value => some (if value then "true" else "false")
  | .number value => some (toString value)
  | .list _ | .steps _ | .map _ => none

def written? : Value → Option String
  | .text s => some s
  | _ => none

end Value

namespace Assignment

def isReference (a : Assignment) : Bool :=
  (a.value.written?).any Reference.isOnly

end Assignment

namespace Step

def range : Step → Range
  | .named call => call.range
  | .run r => r.range
  | .checkout range .. | .setupRemoteDocker range .. | .saveCache range .. | .restoreCache range ..
  | .storeArtifacts range .. | .storeTestResults range .. | .persistToWorkspace range ..
  | .attachWorkspace range .. | .addSshKeys range .. | .steps range .. => range

/-- The name of a step: the command it invokes, the name given to a run step, or its own kind. -/
def name : Step → String
  | .named call => call.name
  | .run r => r.name.getD "run"
  | .checkout .. => "checkout"
  | .setupRemoteDocker .. => "setup_remote_docker"
  | .saveCache .. => "save_cache"
  | .restoreCache .. => "restore_cache"
  | .storeArtifacts .. => "store_artifacts"
  | .storeTestResults .. => "store_test_results"
  | .persistToWorkspace .. => "persist_to_workspace"
  | .attachWorkspace .. => "attach_workspace"
  | .addSshKeys .. => "add_ssh_keys"
  | .steps _ name .. => name

mutual
/-- A step and the steps inside it, outer ones first. -/
def walk : Step → List Step
  | .named ⟨name, range, parameters, parametersRange⟩ =>
    .named ⟨name, range, parameters, parametersRange⟩ :: walkAssignments parameters
  | s => [s]
/-- The steps inside values, in order. -/
def walkAssignments : List Assignment → List Step
  | [] => []
  | a :: as => walkAssignment a ++ walkAssignments as
/-- The steps inside a value given to a parameter. -/
def walkAssignment : Assignment → List Step
  | ⟨_, value, _, _⟩ => walkValue value
def walkValue : Value → List Step
  | .steps ss => walkSteps ss
  | .list items => walkAssignments items
  | .map entries => walkAssignments entries
  | _ => []
def walkSteps : List Step → List Step
  | [] => []
  | s :: ss => walk s ++ walkSteps ss
end

end Step

end PipelineLint
