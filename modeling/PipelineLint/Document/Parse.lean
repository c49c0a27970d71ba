import PipelineLint.Document.Basic
import PipelineLint.Document.Jobs
import PipelineLint.Document.Reads
import PipelineLint.Text.Decimal

/-! # Reading documents

A document is read section by section in a fixed order, whatever the order in the text. The body of a
local orb is cut out of the text, with blanks in place of all that stands before it, and read as a
document of its own: so its places are places of the whole text. Since the blanks take the place of at
least a key, each orb inside an orb has fewer characters that are not blank, and reading ends.
-/

namespace PipelineLint

namespace Read

open Yaml

def sectionOrder : List String :=
  ["version", "description", "orbs", "executors", "commands", "jobs", "parameters", "workflows"]

/-- Blanks in place of a text: as many bytes, with the line breaks at their places. -/
def blanks (cs : List Char) : List Char :=
  cs.flatMap fun c => if isBreak c then [c] else List.replicate c.utf8Size ' '

/-- The body of a local orb at its place in the text, and nothing else. -/
def orbText (source : List Char) (body : Node) : List Char :=
  blanks (Text.takeBytes body.start.offset source) ++
    Text.slice source body.start.offset body.stop.offset ++ ['\n']

/-- The place of the text after the sign `@`; nowhere without it. -/
def orbVersionRange (v : View) (value : Node) : Range :=
  match Text.cut? ['@'] (v.rawText value) with
  | none => {}
  | some (before, _) =>
    ⟨⟨value.start.row, value.start.column + Text.byteLength before + 1⟩, value.stop.position⟩

/-- Reads an orb, which is a name with a version or a body. `nested` reads the text of a body. Anything
else is left out. -/
def orb (v : View) (nested : List Char → Except Endless Document) (p : Pair) :
    Reads (Option (OrbUse × Option LocalOrb)) :=
  match p.key, p.rawValue with
  | some key, some value =>
    let name := v.text key
    let bare : OrbUse := { name, nameRange := key.range, range := p.range, valueRange := value.range }
    match value.kind with
    | .flowNode =>
      pure (some ({ bare with url := .parse (v.text value), versionRange := orbVersionRange v value },
        none))
    | .blockNode =>
      if (v.mapping? value).isNone then pure none
      else match nested (orbText v.tree.source value) with
        | .error _ => Reads.endless
        | .ok document => do
          Reads.notes document.diagnostics
          pure (some ({ bare with url := { name, isLocal := true } }, some ⟨name, value.range, document⟩))
    | _ => pure none
  | _, _ => pure none

/-- Reads the orbs of a configuration; the last definition of a name counts. -/
def orbs (v : View) (nested : List Char → Except Endless Document) (n : Node) :
    Reads (NameMap OrbUse × List LocalOrb) :=
  Reads.through (fun found p => do
    match ← orb v nested p with
    | none => pure found
    | some (use, none) => pure (found.1.insert use.name use, found.2)
    | some (use, some inner) => pure (found.1.insert use.name use, LocalOrb.insert found.2 inner))
    (∅, []) (v.pairs n)

/-- Finds a section without a value. -/
def emptySection (p : Pair) : Reads Unit :=
  Reads.note (.warning .emptySection p.range "Empty assignation")

def readSection (v : View) (nested : List Char → Except Endless Document) (d : Document)
    (name : String) (p : Pair) : Reads Document :=
  let range := p.valueOrPairRange
  match name, p.value with
  | "version", value => pure { d with
      versionRange := p.range
      version := match value with
        | some value => (Text.Double.ofText? (v.characters value)).getD ⟨0, false⟩
        | none => d.version }
  | "description", value => pure { d with description := value.map v.text }
  | "orbs", some value => do
    let (orbs, localOrbs) ← orbs v nested value
    pure { d with orbs, localOrbs, orbsRange := range }
  | "orbs", none => do
    emptySection p
    pure { d with orbsRange := range }
  | "executors", some value => do
    let executors ← executors v value
    pure { d with executors, executorsRange := range }
  | "executors", none => do
    emptySection p
    pure { d with executorsRange := range }
  | "commands", some value => do
    let commands ← commands v value
    pure { d with commands, commandsRange := range }
  | "commands", none => pure { d with commandsRange := range }
  | "jobs", some value => do
    let jobs ← jobs v value
    pure { d with jobs, jobsRange := range }
  | "parameters", some value => do
    let pipelineParameters ← parameters v value
    pure { d with pipelineParameters, pipelineParametersRange := range }
  | "parameters", none => do
    emptySection p
    pure { d with pipelineParametersRange := range }
  | "workflows", some value => do
    let workflows ← workflows v d.version.value value
    pure { d with workflows, workflowsRange := range }
  | _, _ => pure d

def addContext (context : String) (contexts : List String) : List String :=
  if contexts.contains context then contexts else contexts ++ [context]

/-- Gives a context to a job, and to the commands or jobs that its steps name. -/
def giveContext (d : Document) (jobName context : String) : Document :=
  match d.jobs.get? jobName with
  | none => d
  | some job =>
    let own := d.jobs.modify jobName fun j => { j with contexts := addContext context j.contexts }
    (job.steps.map Step.name).foldl (fun d name =>
      if d.commands.contains name then
        { d with commands := d.commands.modify name fun c =>
            { c with contexts := addContext context c.contexts } }
      else
        { d with jobs := d.jobs.modify name fun j =>
            { j with contexts := addContext context j.contexts } }) { d with jobs := own }

/-- Gives the contexts of the jobs of workflows to the jobs that they use. -/
def giveContexts (d : Document) : Document :=
  let given := d.workflows.values.flatMap fun w => w.jobs.flatMap fun use =>
    use.contexts.map fun context => (use.jobName, context.text)
  given.foldl (fun d (jobName, context) => giveContext d jobName context) d

def readEntities (v : View) (nested : List Char → Except Endless Document) (d : Document)
    (top : Node) : Reads Document := do
  let pairs := v.pairs top
  let read ← Reads.through (fun d name =>
    match pairs.find? fun p => v.keyText p == name with
    | some p => readSection v nested d name p
    | none => pure d) d sectionOrder
  pure (giveContexts read)

/-- Reads what a tree holds, without its comments. -/
def contents (nested : List Char → Except Endless Document) (kind : DocumentKind) (tree : Tree) :
    Reads Document :=
  let anchors := Anchors.ofTree tree
  let bare := { Document.ofTree kind tree with anchors }
  match tree.top? with
  | some top => readEntities (.ofAnchors tree anchors) nested bare top
  | none => pure bare

/-- The document of what was read and found. Comments and the form of the text matter for configurations
only, not for orbs. -/
def complete (kind : DocumentKind) (tree : Tree) (read : Document) (findings : List Diagnostic) :
    Document :=
  match kind with
  | .orb => { read with diagnostics := findings }
  | .config =>
    let anchors := Anchors.ofTree tree
    let syntactic := syntaxFindings (.ofAnchors tree anchors) anchors
    let (suppression, complaints) := Suppression.ofTree tree
    { read with suppression, diagnostics := syntactic ++ findings ++ complaints }

def ofTreeWith (nested : List Char → Except Endless Document) (kind : DocumentKind) (tree : Tree) :
    Except Endless Document :=
  match contents nested kind tree with
  | .error e => .error e
  | .ok (read, findings) => .ok (complete kind tree read findings)

end Read

namespace Document

open Yaml

/-- The number of characters that are neither spaces nor line breaks. -/
def inkOf (cs : List Char) : Nat := cs.countP fun c => !(isBreak c || c == ' ')

variable (g : Grammar)

/-- Reads an orb that lies at most `depth` orbs above the innermost one. -/
def orbWithin : Nat → List Char → Except Endless Document
  | 0, _ => .error {}
  | depth + 1, source => Read.ofTreeWith (orbWithin depth) .orb (g.tree source)

/-- Reads a document from a tree of its text. The bodies of its local orbs are read by the grammar. -/
def parseTree (kind : DocumentKind) (tree : Tree) : Except Endless Document :=
  Read.ofTreeWith (orbWithin g (inkOf tree.source + 1)) kind tree

def parse (source : List Char) : Except Endless Document :=
  parseTree g .config (g.tree source)

def parseOrb (source : List Char) : Except Endless Document :=
  parseTree g .orb (g.tree source)

end Document

end PipelineLint
