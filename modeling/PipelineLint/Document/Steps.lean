import PipelineLint.Document.Reads
import PipelineLint.Yaml.CoreSchema

/-! # Reading steps and values

Steps are items of a sequence; a step that invokes a command has values, and values may be steps.
Conditional blocks dissolve into the steps that they hold. Every function here goes down the tree or
along an alias, so the number of calls in each other is bounded by `fuelFor`, unless a value contains
itself.
-/

namespace PipelineLint.Read

open Yaml

variable (v : View)

/-- The value that a scalar stands for: the number of an unquoted integer, the truth value of an
unquoted truth word, or a text. An integer that does not fit 64 bits is no value. -/
def scalarValue? (n : Node) : Option Value :=
  let text := v.text n
  if n.kind = .plainScalar then
    match (n.namedChildren.head?.map Node.kind : Option Kind) with
    | some .booleanScalar => some (.truth (text.toList.map Char.toLower == "true".toList))
    | some .integerScalar => (Text.signed? 64 text.toList).map .number
    | _ => if Truth.isWord text then (Truth.read? text).map .truth else some (.text text)
  else some (.text text)

def fieldTexts (n : Node) (key : String) : List String :=
  match v.field? n key with
  | some value => (v.texts value).map (·.text)
  | none => []

def fieldText? (n : Node) (key : String) : Option String := (v.field? n key).map v.text

def fieldText (n : Node) (key : String) : String := v.textOrEmpty (v.field? n key)

def runField (run : Run) (p : Pair) : Run :=
  match p.value with
  | none => run
  | some value =>
    let text := v.text value
    match v.keyText p with
    | "name" => { run with name := some text }
    | "command" =>
      { run with command := text, rawCommand := String.ofList (v.rawText value)
                 commandRange := value.range }
    | "shell" => { run with shell := some text }
    | "background" => { run with background := text == "true" }
    | "working_directory" => { run with workingDirectory := some text }
    | "no_output_timeout" => { run with noOutputTimeout := some text }
    | "when" => { run with condition := some (v.located value) }
    | "max_auto_reruns" => { run with maxAutoReruns := some (v.located value) }
    | "auto_rerun_delay" => { run with autoRerunDelay := some (v.located value) }
    | "environment" => { run with environment := environment v value }
    | _ => run

/-- Reads a run step: a command, or a mapping with a command in it. -/
def run (p : Pair) (value : Node) (isDeploy : Bool) : Run :=
  let bare : Run := { range := p.keyRange, isDeploy }
  match v.mapping? value with
  | none =>
    { bare with command := v.text value, rawCommand := String.ofList (v.rawText value)
                commandRange := value.range }
  | some mapping => (v.pairs mapping).foldl (runField v) bare

/-- The built-in step of a key, other than `run`, `deploy` and the conditional ones. -/
def builtIn? (key : String) (p : Pair) (value : Node) : Option Step :=
  let range := p.keyRange
  match key with
  | "checkout" => some (.checkout range ((fieldText? v value "path").getD "."))
  | "setup_remote_docker" =>
    some (.setupRemoteDocker range (fieldText? v value "docker_layer_caching" == some "true")
      (fieldText? v value "version"))
  | "save_cache" =>
    some (.saveCache range (fieldText? v value "name") (fieldText v value "key")
      (fieldTexts v value "paths"))
  | "restore_cache" =>
    some (.restoreCache range (fieldText? v value "name") (fieldText? v value "key")
      (fieldTexts v value "keys"))
  | "store_artifacts" =>
    some (.storeArtifacts range (fieldText v value "path") (fieldText? v value "destination"))
  | "store_test_results" => some (.storeTestResults range (fieldText v value "path"))
  | "persist_to_workspace" =>
    some (.persistToWorkspace range (fieldText v value "root") (fieldTexts v value "paths"))
  | "attach_workspace" => some (.attachWorkspace range (fieldText v value "at"))
  | "add_ssh_keys" => some (.addSshKeys range (fieldTexts v value "fingerprints"))
  | "steps" =>
    let text := v.characters value
    let (_, name) := Reference.pathAndName text
    some (.steps p.valueOrPairRange (String.ofList name) (String.ofList text) value.range)
  | _ => none

/-- An item of a list of values is a step: a mapping in block style that has pairs. -/
def isStepItem (i : Item) : Bool :=
  i.value.any fun value => value.kind = .blockNode && !(v.directPairs value).isEmpty

/-- The value with its alias in place of a scalar that was written as one. -/
def withAlias (raw : Node) (value : Value) : Value :=
  match value, View.aliasOf? raw with
  | .map entries, _ => .map entries
  | .list items, _ => .list items
  | _, some a => .alias (v.nameOfAlias a)
  | value, none => value

mutual
def steps : Nat → Node → Reads (List Step)
  | 0, _ => Reads.endless
  | fuel + 1, n => do
    let parts ← Reads.each (step fuel) (v.items n)
    pure parts.flatten
termination_by structural fuel => fuel
def step : Nat → Item → Reads (List Step)
  | 0, _ => Reads.endless
  | fuel + 1, i =>
    match i.value with
    | none => pure [.named ⟨"", i.markerRange, [], {}⟩]
    | some value =>
      match v.mapping? value with
      | none =>
        if value.kind = .flowNode then pure [.named ⟨v.text value, value.range, [], {}⟩]
        else pure [.run { range := value.range }]
      | some mapping =>
        match (v.pairs mapping).head? with
        | none => pure []
        | some p =>
          match p.value with
          | none => pure []
          | some inner =>
            let key := v.keyText p
            if key = "run" then pure [.run (run v p inner false)]
            else if key = "deploy" then pure [.run (run v p inner true)]
            else if key = "when" ∨ key = "unless" then conditional fuel inner
            else match builtIn? v key p inner with
              | some s => pure [s]
              | none => do
                let call ← invocation fuel key p inner
                pure [.named call]
termination_by structural fuel => fuel
def conditional : Nat → Node → Reads (List Step)
  | 0, _ => Reads.endless
  | fuel + 1, n => do
    let parts ← Reads.each (fun p => match p.value with
      | some value => if v.keyText p = "steps" then steps fuel value else pure []
      | none => pure []) (v.pairs n)
    pure parts.flatten
termination_by structural fuel => fuel
def invocation : Nat → String → Pair → Node → Reads Invocation
  | 0, _, _, _ => Reads.endless
  | fuel + 1, name, p, value =>
    match v.mapping? value with
    | none => pure ⟨name, p.keyRange, [], {}⟩
    | some mapping => do
      let named := (v.pairs mapping).filter fun q => !(v.keyText q).isEmpty
      let parameters ← assignments fuel named
      pure ⟨name, p.keyRange, parameters, mapping.range⟩
termination_by structural fuel => fuel
/-- Reads the values of pairs; the last value of a name counts. -/
def assignments : Nat → List Pair → Reads Assignments
  | 0, _ => Reads.endless
  | fuel + 1, ps => do
    let read ← Reads.each (assignment fuel) ps
    pure (read.foldl (fun as a => match a with
      | some a => as.insert a
      | none => as) [])
termination_by structural fuel => fuel
/-- Reads the value of a pair. A name without a value is found and left out. -/
def assignment : Nat → Pair → Reads (Option Assignment)
  | 0, _ => Reads.endless
  | fuel + 1, p =>
    match p.key, p.rawValue with
    | none, _ => pure none
    | some key, none => do
      Reads.note (.warning .missingValue key.range "No value defined for the parameter")
      pure none
    | some key, some raw => do
      let name := v.text key
      let value ← match v.content? raw with
        | none => pure none
        | some content =>
          if content.kind.isSequence then do
            let items ← listItems fuel name raw
            pure (some (.list items))
          else if content.kind.isMapping then do
            let entries ← assignments fuel ((v.pairs content).filter fun q =>
              q.key.isSome && q.rawValue.isSome)
            pure (some (.map entries))
          else if content.kind.isScalar then pure (scalarValue? v content)
          else pure none
      pure (value.map fun value => ⟨name, withAlias v raw value, raw.range, p.range⟩)
termination_by structural fuel => fuel
/-- Reads the items of a list of values; items that are neither steps nor scalars are left out. -/
def listItems : Nat → String → Node → Reads Assignments
  | 0, _, _ => Reads.endless
  | fuel + 1, name, n => do
    let read ← Reads.each (fun i =>
      if isStepItem v i then do
        let inner ← step fuel i
        pure (some (Assignment.mk name (.steps inner) i.range i.range))
      else
        pure (((i.value.bind v.scalar?).bind (scalarValue? v)).map fun value =>
          Assignment.mk name value i.range i.range)) (v.items n)
    pure (read.filterMap id)
termination_by structural fuel => fuel
end

/-- More calls in each other than values need that do not contain themselves: some for each node that
can be reached. -/
def fuelFor (values : List Node) : Nat := 8 * (Node.sizeAll values + v.size + 1)

def readSteps (n : Node) : Reads (List Step) := steps v (fuelFor v [n]) n

def readStep (i : Item) : Reads (List Step) := step v (fuelFor v i.value.toList) i

def readAssignment (p : Pair) : Reads (Option Assignment) :=
  assignment v (fuelFor v p.rawValue.toList) p

def readAssignments (n : Node) : Reads Assignments := assignments v (fuelFor v [n]) (v.pairs n)

end PipelineLint.Read
