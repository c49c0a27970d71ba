import PipelineLint.Document.Lookup
import PipelineLint.Registry
import PipelineLint.Settings.Basic

/-! # The scope of a check

A check looks at one document. The body of a local orb is checked with the document around it: names of orbs
that the body does not know are looked up there, and pipeline parameters are those of that document. What a
check finds is a notice: a finding, or something that a collaborator must be asked before it is known whether
there is a finding.
-/

namespace PipelineLint.Check

/-- What a check has found or wants to know. -/
inductive Notice where
  | finding (finding : Diagnostic)
  /-- An image that Docker Hub must be asked about. -/
  | image (spec : ImageSpec)
  /-- A command that the shell linter must be asked about. -/
  | script (run : Run)
  deriving Repr

/-- The document that a local orb stands in, and the name of the orb. -/
structure Enclosing where
  orb : String
  document : Document

structure Scope where
  settings : Settings
  caches : Caches
  /-- Why orbs are not known, by their names in the document. -/
  failures : NameMap RegistryError
  document : Document
  enclosing : Option Enclosing := none

namespace Scope

variable (s : Scope)

def documents : List Document := s.document :: (s.enclosing.map (·.document)).toList

def isLocalOrb : Bool := s.enclosing.isSome

def pipelineParameters : Parameters :=
  ((s.enclosing.map (·.document)).getD s.document).pipelineParameters

def isOrbName (name : String) : Bool := s.documents.any (·.isOrbName name)

def isOrbCommand (name : String) : Bool := s.documents.any (·.isOrbCommand s.caches name)

def isOrbJob (name : String) : Bool := s.documents.any (·.isOrbJob s.caches name)

def isOrbExecutor (name : String) : Bool := s.documents.any (·.isOrbExecutor s.caches name)

def isFromUnknownOrb (name : String) : Bool := s.documents.any (·.isFromUnknownOrb s.caches name)

def orbInfo? (orb : String) : Option OrbInfo := s.documents.findSome? (·.orbInfo? s.caches orb)

def definedParameters? (name : String) : Option Parameters :=
  s.documents.findSome? (·.definedParameters? s.caches name)

def hasExecutor (name : String) : Bool :=
  s.document.executors.contains name || s.isOrbExecutor name

def isStepName (name : String) : Bool :=
  s.document.commands.contains name || s.document.jobs.contains name || Catalog.isBuiltInStep name ||
    isAliasName name || s.isOrbCommand name || s.isOrbJob name || s.isFromUnknownOrb name

/-- The parameter that the first reference of a text means; `usable` are those of the enclosing entity. -/
def referenced? (usable : Parameters) (text : String) : Option Parameter :=
  match (Reference.findAll text.toList).head? with
  | none => none
  | some r => match r.scope with
    | .enclosing => usable.get? r.name
    | .pipeline => s.pipelineParameters.get? r.name

end Scope

end PipelineLint.Check
