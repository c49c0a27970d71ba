import PipelineLint.Document.Basic
import PipelineLint.Catalog
import PipelineLint.Cache

/-! # Looking things up in a document

What names mean and what stands at a place. A name `orb/entity` means an entity of a declared orb: the
body of a local orb, or the contents of a registry orb as far as the caches know them.
-/

namespace PipelineLint

/-- Splits `orb/entity`, which has exactly one slash. -/
def splitOrbName (name : String) : Option (String × String) :=
  match Text.splitAtChar '/' name.toList with
  | [orb, entity] => some (String.ofList orb, String.ofList entity)
  | _ => none

def isAliasName (name : String) : Bool := name.toList.head? == some '*'

namespace Document

variable (d : Document)

def couldBeOrbName (name : String) : Bool := (splitOrbName name).isSome

def isOrbName (name : String) : Bool :=
  (splitOrbName name).any fun (orb, _) => d.orbs.contains orb

def isNameOfOrb (name orb : String) : Bool :=
  d.isOrbName name && (splitOrbName name).any fun (prefixed, _) => prefixed == orb

/-- The name is that of a job, an executor, an entity of an orb or, if asked for, a command. -/
def isEntityName (name : String) (withCommands : Bool) : Bool :=
  d.jobs.contains name || (withCommands && d.commands.contains name) || d.executors.contains name ||
    d.isOrbName name

def toOrbInfo (id version : String) : OrbInfo :=
  { id, version, source := String.ofList d.source, description := d.description
    commands := d.commands, jobs := d.jobs, executors := d.executors
    pipelineParameters := d.pipelineParameters }

def localOrbInfo? (name : String) : Option OrbInfo :=
  (LocalOrb.find? d.localOrbs name).map fun o => { o.document.toOrbInfo name "" with isLocal := true }

/-- The contents of a declared orb, if they are known. -/
def orbInfo? (caches : Caches) (name : String) : Option OrbInfo :=
  match d.orbs.get? name with
  | none => none
  | some use => if use.url.isLocal then d.localOrbInfo? name else caches.orbs.get? use.url.id

def orbEntity (caches : Caches) (name : String) (p : OrbInfo → String → Bool) : Bool :=
  match splitOrbName name with
  | none => false
  | some (orb, entity) => (d.orbInfo? caches orb).any fun info => p info entity

def isOrbCommand (caches : Caches) (name : String) : Bool :=
  d.orbEntity caches name fun info entity => info.commands.contains entity

def isOrbJob (caches : Caches) (name : String) : Bool :=
  d.orbEntity caches name fun info entity => info.jobs.contains entity

def isOrbExecutor (caches : Caches) (name : String) : Bool :=
  d.orbEntity caches name fun info entity => info.executors.contains entity

/-- The name leads into a declared registry orb whose contents are unknown. -/
def isFromUnknownOrb (caches : Caches) (name : String) : Bool :=
  match splitOrbName name with
  | none => false
  | some (orb, _) => (d.orbs.get? orb).any fun use =>
      !use.url.isLocal &&
        (Reference.hasSubstitution use.url.version || !caches.orbs.contains use.url.id)

/-- The parameters of a job, a command, or a command or job of an orb. -/
def definedParameters? (caches : Caches) (name : String) : Option Parameters :=
  match d.jobs.get? name with
  | some job => some job.parameters
  | none => match d.commands.get? name with
    | some command => some command.parameters
    | none => do
      let (orb, entity) ← splitOrbName name
      let info ← d.orbInfo? caches orb
      info.parametersOf? entity

def executorAt? (p : Position) : Option Executor :=
  d.executors.values.find? (·.range.contains p)

mutual
/-- The parameters of the command, job or executor whose definition a position lies in; inside a local
orb, those of its entities. -/
def parametersAt? (p : Position) : Document → Option Parameters
  | ⟨_, _, _, _, _, _, orbsRange, localOrbs, executors, executorsRange, commands, commandsRange, jobs,
      jobsRange, _, _, _, _, _, _, _⟩ =>
    let command := if commandsRange.contains p then
      commands.values.find? (·.range.contains p) else none
    let job := if jobsRange.contains p then jobs.values.find? (·.range.contains p) else none
    match command, job with
    | some c, _ => some c.parameters
    | none, some j => some j.parameters
    | none, none =>
      if orbsRange.contains p then localParametersAt? p localOrbs
      else if executorsRange.contains p then
        (executors.values.find? (·.range.contains p)).map (·.parameters)
      else none
/-- The parameters at a position inside the first local orb around it. -/
def localParametersAt? (p : Position) : List LocalOrb → Option Parameters
  | [] => none
  | ⟨_, range, document⟩ :: orbs =>
    if range.contains p then parametersAt? p document else localParametersAt? p orbs
end

/-- Reads the reference to a parameter at a position. A position inside a character has none. -/
def readReferenceAt (p : Position) : Except InsideCharacter (Option Reference) :=
  match Text.offsetOf? p d.source with
  | none => .ok none
  | some offset =>
    if Text.isBoundary offset d.source then Reference.usedAt d.source offset else .ok none

def referenceAt? (p : Position) : Option Reference :=
  match d.readReferenceAt p with
  | .ok reference => reference
  | .error _ => none

def anchorAt? (p : Position) : Option Yaml.Anchor :=
  d.anchors.table.values.find? fun a => a.definition.contains p || a.references.any (·.contains p)

def isAliasAt (p : Position) : Bool :=
  d.anchors.table.values.any fun a => a.references.any (·.contains p)

/-- The place that a path leads to: each part of it is a key or the number of an item. Where a part leads
nowhere, the place reached before. -/
def pathRange (path : List String) : Range :=
  go d.tree.top.range (some d.tree.top) path
where
  go (range : Range) : Option Yaml.Node → List String → Range
    | _, [] => range
    | none, _ => range
    | some n, part :: path =>
      if (d.view.sequence? n).isSome then
        match (Text.unsigned? 64 part.toList).bind fun i => (d.view.items n)[i]? with
        | some item => go item.range item.value path
        | none => range
      else match d.view.find? n part with
        | some pair => go pair.keyRange pair.value path
        | none => range

end Document

end PipelineLint
