import PipelineLint.Check.Scope
import PipelineLint.Load.Decode
import PipelineLint.Schema.Basic

/-! # The shape of a configuration

A configuration can be checked against a schema. A text with broken YAML is not, since its findings say already
what is wrong with it.
-/

namespace PipelineLint.Check

open Text

/-- The line with a number counted from one, without the blanks around its text. -/
def lineRange? (source : List Char) (line : Nat) : Option Range :=
  match line with
  | 0 => none
  | n + 1 => (lines source)[n]?.map fun text =>
    let start := byteLength text - byteLength (trimStart text)
    let stop := max (byteLength (trimEnd text)) start
    Range.ofCoordinates n start n stop

/-- What is said about a text that cannot be read as plain data. -/
def undecodable (d : Document) (e : Load.DecodeError) : Diagnostic :=
  .error .undecodable ((e.line?.bind (lineRange? d.source)).getD (d.pathRange [])) e.message

def violation (d : Document) (v : Schema.Violation) : Diagnostic :=
  .error .schemaViolation (d.pathRange v.path) v.message

def isBroken (d : Document) : Bool := d.diagnostics.any fun found => found.code.any Code.isSyntax

def shape (loader : Load.Loader) (schema : Option Schema) (s : Scope) : List Notice :=
  match schema with
  | none => []
  | some schema =>
    if isBroken s.document then []
    else match loader.decode s.document.source with
      | .error e => [.finding (undecodable s.document e)]
      | .ok data => (schema.violations data).map fun v => .finding (violation s.document v)

end PipelineLint.Check
