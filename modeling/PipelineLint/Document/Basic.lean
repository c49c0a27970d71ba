import PipelineLint.Text.Decimal
import PipelineLint.Model.Entity
import PipelineLint.Diagnostic.Suppression
import PipelineLint.Yaml.View

/-! # Documents

A document is a text with everything that was read from it: the tree, the entities it declares, its
anchors, what its comments hide, and the findings. The body of a local orb is a document of its own in
the coordinates of the text around it.
-/

namespace PipelineLint

/-- What a text is read as. -/
inductive DocumentKind where
  | config
  | orb
  deriving DecidableEq, Repr, Inhabited

mutual
/-- A text with everything that was read from it. -/
structure Document where
  kind : DocumentKind
  tree : Yaml.Tree
  version : Text.Double
  versionRange : Range
  description : Option String
  orbs : NameMap OrbUse
  orbsRange : Range
  localOrbs : List LocalOrb
  executors : NameMap Executor
  executorsRange : Range
  commands : NameMap Command
  commandsRange : Range
  jobs : NameMap Job
  jobsRange : Range
  workflows : NameMap Workflow
  workflowsRange : Range
  pipelineParameters : Parameters
  pipelineParametersRange : Range
  anchors : Yaml.Anchors
  suppression : Suppression
  diagnostics : List Diagnostic
/-- An orb whose body stands in the text. -/
structure LocalOrb where
  name : String
  range : Range
  document : Document
end

namespace LocalOrb

def find? (orbs : List LocalOrb) (name : String) : Option LocalOrb :=
  orbs.find? (·.name == name)

/-- Sets the orb of its name; a name that is there keeps its place. -/
def insert : List LocalOrb → LocalOrb → List LocalOrb
  | [], o => [o]
  | other :: orbs, o => if other.name == o.name then o :: orbs else other :: insert orbs o

end LocalOrb

namespace Document

/-- The document of a tree, before anything is read from it. -/
def ofTree (kind : DocumentKind) (tree : Yaml.Tree) : Document :=
  { kind, tree, version := ⟨0, false⟩, versionRange := {}, description := none, orbs := ∅, orbsRange := {}
    localOrbs := [], executors := ∅, executorsRange := {}, commands := ∅, commandsRange := {}
    jobs := ∅, jobsRange := {}, workflows := ∅, workflowsRange := {}, pipelineParameters := ∅
    pipelineParametersRange := {}, anchors := {}, suppression := {}, diagnostics := [] }

instance : Inhabited Document := ⟨ofTree .config ⟨[], default⟩⟩

def source (d : Document) : List Char := d.tree.source

def view (d : Document) : Yaml.View := .ofAnchors d.tree d.anchors

/-- The findings that no comment hides. -/
def visible (d : Document) : List Diagnostic := d.suppression.filter d.diagnostics

def addFindings (d : Document) (findings : List Diagnostic) : Document :=
  { d with diagnostics := d.diagnostics ++ findings }

end Document

end PipelineLint
