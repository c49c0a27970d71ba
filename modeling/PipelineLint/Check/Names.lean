import PipelineLint.Check.Scope

/-! # Names and references

Workflows, jobs and commands should not share a name, and every reference to a parameter must mean one.
-/

namespace PipelineLint.Check

structure Definition where
  kind : String
  name : String
  range : Range
  deriving DecidableEq, Repr

/-- The workflows, jobs and commands of a document. -/
def definitions (d : Document) : List Definition :=
  d.workflows.values.map (fun w => ⟨"workflow", w.name, w.nameRange⟩) ++
    d.jobs.values.map (fun j => ⟨"job", j.name, j.nameRange⟩) ++
    d.commands.values.map fun c => ⟨"command", c.name, c.nameRange⟩

def sharedName (d : Definition) (otherKind : String) : Diagnostic :=
  .warning .nameCollision d.range ("The name \"" ++ d.name ++ "\" is already used to define a " ++
    otherKind ++ ". You might want to use a different name to avoid confusion.")

/-- Finds both of any two definitions of different kinds that share a name. -/
def sharedNames : List Definition → List Diagnostic
  | [] => []
  | first :: rest =>
    (rest.filter fun second => first.kind != second.kind && first.name == second.name).flatMap
      (fun second => [sharedName first second.kind, sharedName second first.kind]) ++ sharedNames rest

def names (s : Scope) : List Notice := (sharedNames (definitions s.document)).map .finding

/-- The references in the scalars below a node, with their places in the text. -/
def referencesBelow (d : Document) (n : Yaml.Node) : List (Reference × Range) :=
  (n.preorder.filter (·.kind.isScalar)).flatMap fun scalar =>
    (Reference.findAll (d.view.rawText scalar)).map fun r =>
      (r, ⟨Text.positionAt (scalar.start.offset + r.start) d.source,
        Text.positionAt (scalar.start.offset + r.stop) d.source⟩)

/-- Finds a reference whose parameter is not declared. -/
def undefinedReference (s : Scope) (r : Reference) (range : Range) : List Diagnostic :=
  match r.scope with
  | .pipeline =>
    if s.pipelineParameters.contains r.name then []
    else [.error .undefinedParameter range ("Pipeline parameter " ++ r.name ++ " is not defined")]
  | .enclosing =>
    if (Document.parametersAt? range.start s.document).any (·.contains r.name) then []
    else [.error .undefinedParameter range ("Parameter " ++ r.name ++ " is not defined")]

def references (s : Scope) : List Notice :=
  (referencesBelow s.document s.document.tree.top).flatMap fun (r, range) =>
    (undefinedReference s r range).map .finding

end PipelineLint.Check
