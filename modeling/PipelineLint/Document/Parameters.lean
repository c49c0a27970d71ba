import PipelineLint.Document.Steps

/-! # Reading parameters, executors and retention

Declarations of parameters with their defaults, and executors with what they run on.
-/

namespace PipelineLint.Read

open Yaml

variable (v : View)

/-- An item can be a step: a scalar, or a mapping with pairs. -/
def canBeStep (i : Item) : Bool :=
  i.value.any fun value => (v.scalar? value).isSome ||
    (v.mapping? value).any fun mapping => !(v.directPairs mapping).isEmpty

/-- Reads the default of a parameter of steps; items that cannot be steps are found. -/
def stepsDefault (n : Node) : Reads (List Step) := do
  let parts ← Reads.each (fun i =>
    if canBeStep v i then readStep v i
    else do
      Reads.note (.error .invalidValue i.range "Not a valid step")
      pure []) (v.items n)
  pure parts.flatten

/-- Reads a default for a type; there is none where the value cannot be read as a default. A boolean
parameter has a default even if its value is no truth word. -/
def defaultFor (type : ParameterType) (p : Pair) : Reads (Option ParameterType) :=
  let text := v.textOrEmpty p.value
  match type with
  | .string _ => pure (some (.string (some text)))
  | .enum _ values range => pure (some (.enum (some text) values range))
  | .executor _ => pure (some (.executor (some text)))
  | .envVarName _ => pure (some (.envVarName (some text)))
  | .boolean _ => pure (some (.boolean (Truth.read? text)))
  | .integer _ => pure ((Text.signed? 64 text.toList).map fun n => .integer (some n))
  | .steps _ =>
    match p.value.filter fun value => (v.sequence? value).isSome with
    | none => pure none
    | some value => do
      let steps ← stepsDefault v value
      pure (some (.steps steps))

def parameterField (parameter : Parameter) (p : Pair) : Reads Parameter :=
  match v.keyText p with
  | "description" => pure { parameter with description := p.value.map v.text }
  | "enum" =>
    match parameter.type, p.value with
    | .enum default _ _, some value =>
      pure { parameter with type := .enum default ((v.texts value).map (·.text)) value.range }
    | _, _ => pure parameter
  | "default" => do
    match ← defaultFor v parameter.type p with
    | none => pure parameter
    | some type => pure { parameter with type, hasDefault := true, defaultRange := p.openRange }
  | _ => pure parameter

/-- Reads the declaration of a parameter; one whose body is no mapping is left out. A parameter of no
known type counts as a string. -/
def parameter (p : Pair) : Reads (Option Parameter) :=
  match p.key, p.value.bind v.mapping? with
  | some key, some body => do
    let name := v.text key
    let typePair := v.find? body "type"
    let word := v.textOrEmpty (typePair.bind (·.value))
    let typeRange := match typePair with
      | none => {}
      | some typed => if typed.value.isSome then typed.range else typed.afterRange
    match ParameterType.ofWord? word with
    | none => pure (some
        { name, nameRange := key.range, range := body.range, typeRange, type := .string none })
    | some type => do
      let bare : Parameter := { name, nameRange := key.range, range := p.range, typeRange, type }
      let declared ← Reads.through (parameterField v) bare (v.pairs body)
      match declared.strayDefault? with
      | none => pure ()
      | some (stray, values) => Reads.note (.error .invalidValue declared.defaultRange
          ("Default value " ++ stray ++ " is not in enum '" ++ ", ".intercalate values ++ "'"))
      pure (some declared)
  | _, _ => pure none

/-- Reads the declarations of parameters; the last declaration of a name counts. -/
def parameters (n : Node) : Reads Parameters := do
  let read ← Reads.each (parameter v) (v.pairs n)
  pure (NameMap.ofList ((read.filterMap id).map fun p => (p.name, p)))

/-- The keys that tell what an executor runs on. -/
def executorFamilies : List String := ["docker", "machine", "macos", "windows"]

def imageField (spec : ImageSpec) (p : Pair) : ImageSpec :=
  match p.value with
  | none => spec
  | some value =>
    match v.keyText p with
    | "image" => { spec with image := Docker.Image.parse (v.text value), imageRange := p.range }
    | "name" => { spec with name := some (v.text value) }
    | "entrypoint" => { spec with entrypoint := v.textOrTexts value }
    | "command" => { spec with command := v.textOrTexts value }
    | "user" => { spec with user := some (v.text value) }
    | "environment" => { spec with environment := environment v value }
    | "auth" =>
      let entries := dictionary v value
      let auth : Credentials :=
        ⟨(entries.get? "username").getD "", (entries.get? "password").getD ""⟩
      { spec with auth := some auth }
    | "aws_auth" =>
      let entries := dictionary v value
      let either := fun lower upper => ((entries.get? lower).or (entries.get? upper)).getD ""
      let auth : Credentials :=
        ⟨either "aws_access_key_id" "AWS_ACCESS_KEY_ID",
         either "aws_secret_access_key" "AWS_SECRET_ACCESS_KEY"⟩
      { spec with awsAuth := some auth }
    | _ => spec

/-- Reads the Docker images of an executor; items that are no mappings are left out. -/
def images (n : Node) : List ImageSpec :=
  (v.items n).filterMap fun i => (i.value.bind v.mapping?).map fun mapping =>
    (v.pairs mapping).foldl (imageField v) { range := i.range }

/-- Reads a machine: a mapping, or a truth word for the machine that needs no image. -/
def machine (p : Pair) : Machine :=
  match p.value with
  | none => { range := p.range }
  | some value =>
    if (v.mapping? value).isNone then
      { range := p.range, isDeprecated := Truth.read? (v.text value) == some true }
    else (v.pairs value).foldl (fun m q => match v.keyText q with
      | "image" => { m with image := v.textOrEmpty q.value, imageRange := q.range }
      | "docker_layer_caching" => { m with layerCaching := v.textOrEmpty q.value == "true" }
      | _ => m) { range := p.range }

def executorKind (family : String) (p : Pair) : ExecutorKind :=
  let inner := fun key => match p.value.bind fun value => v.find? value key with
    | some q => (v.textOrEmpty q.value, q.range)
    | none => ("", {})
  match family with
  | "docker" => .docker ((p.value.map (images v)).getD [])
  | "machine" => .machine (machine v p)
  | "macos" => .macos (inner "xcode").1 (inner "xcode").2
  | _ => .windows (inner "image").1 (inner "image").2

/-- Adds a field to an executor, except for parameters. The first family that is named counts. -/
def executorField (executor : Executor) (p : Pair) : Executor :=
  let key := v.keyText p
  if executorFamilies.contains key then
    if executor.kind.isIncomplete then { executor with kind := executorKind v key p } else executor
  else match key with
    | "resource_class" =>
      let resourceClass := v.textOrEmpty p.value
      let range := p.range
      let range := if resourceClass.isEmpty then
        { range with stop := { range.stop with column := lineEndColumns } } else range
      { executor with resourceClass, resourceClassRange := range }
    | "description" => { executor with description := p.value.map v.text }
    | "shell" => { executor with shell := p.value.map v.text }
    | "working_directory" => { executor with workingDirectory := p.value.map v.text }
    | "environment" =>
      match p.value with
      | some value => { executor with environment := environment v value }
      | none => executor
    | _ => executor

/-- Reads the executor in the body of a job, whose parameters are those of the job. -/
def inlineExecutor (mapping : Node) : Executor :=
  (v.pairs mapping).foldl (executorField v) {}

def executorBody (mapping : Node) : Reads Executor :=
  Reads.through (fun executor p =>
    if v.keyText p = "parameters" then
      match p.value with
      | none => pure { executor with parametersRange := p.range }
      | some value => do
        let parameters ← parameters v value
        pure { executor with parameters, parametersRange := p.range }
    else pure (executorField v executor p)) {} (v.pairs mapping)

def executors (n : Node) : Reads (NameMap Executor) :=
  Reads.through (fun found p =>
    match p.key, p.value.bind v.mapping? with
    | some key, some mapping => do
      let body ← executorBody v mapping
      let name := v.text key
      insertFirst found name { body with name, nameRange := key.range, range := p.range }
        (·.nameRange) "Executor already defined"
    | _, _ => pure found) ∅ (v.pairs n)

/-- Reads the executor that a job names, with or without parameters. -/
def executorUse (p : Pair) : Reads ExecutorUse :=
  match p.value with
  | none =>
    let start : Position := ⟨p.range.start.line, p.range.start.column + "executor:".length⟩
    pure { range := Range.toLineEnd ⟨start, start⟩ }
  | some value =>
    match v.mapping? value with
    | none => pure { name := v.text value, nameRange := value.range, range := p.range }
    | some mapping =>
      Reads.through (fun use field =>
        if v.keyText field = "name" then
          pure { use with name := v.textOrEmpty field.value, nameRange := field.valueOrPairRange }
        else do
          match ← readAssignment v field with
          | some a => pure { use with parameters := use.parameters.insert a }
          | none => pure use) { range := p.range } (v.pairs mapping)

/-- Reads how long a job keeps what it stores. -/
def retention (n : Node) : Retention :=
  (v.pairs n).foldl (fun r p => match p.value with
    | some value => if v.keyText p = "caches" then { r with caches := some ⟨v.text value, p.range⟩ } else r
    | none => r) { range := n.range }

end PipelineLint.Read
