import PipelineLint.Data.Json
import PipelineLint.Data.Value
import PipelineLint.Diagnostic.Basic
import PipelineLint.Files

/-! # Shell linters

A shell linter answers with findings in a script. Their places are lines and columns of the script, counted
from one. The report of a linter program is JSON.
-/

namespace PipelineLint.Shell

/-- How grave a finding in a script is. -/
inductive Level where
  | error | warning | info | style
  deriving DecidableEq, Repr, Inhabited

namespace Level

def word : Level → String
  | .error => "error"
  | .warning => "warning"
  | .info => "info"
  | .style => "style"

def ofWord? (word : String) : Option Level :=
  [Level.error, .warning, .info, .style].find? (·.word == word)

def severity : Level → Severity
  | .error => .error
  | .warning => .warning
  | .info => .information
  | .style => .hint

end Level

structure Finding where
  line : Nat
  endLine : Nat
  column : Nat
  endColumn : Nat
  level : Level
  code : Nat
  message : String
  deriving DecidableEq, Repr, Inhabited

/-- Why a linter has no answer. -/
inductive LintError where
  /-- The program of the linter cannot be run. -/
  | notRun (program cause : String)
  /-- The report of the linter cannot be read. -/
  | unreadable
  deriving DecidableEq, Repr, Inhabited

namespace LintError

def message : LintError → String
  | notRun program cause => "cannot run " ++ program ++ ": " ++ cause
  | unreadable => "invalid linter output"

end LintError

/-- A shell linter, by its answers to scripts. It runs among files, which it may change. -/
structure Linter where
  lint : Files → String → Except LintError (List Finding) × Files

namespace Linter

def silent : Linter := ⟨fun files _ => (.ok [], files)⟩

end Linter

namespace Finding

/-- Reads a level: a word, or a mapping from it to nothing. -/
def level? : Data → Option Level
  | .text word => Level.ofWord? word
  | .map [(word, .null)] => Level.ofWord? word
  | _ => none

def fieldNames : List String := ["line", "endLine", "column", "endColumn", "level", "code", "message"]

def ofData? (d : Data) : Option Finding := do
  let fields ← d.exactFields? fieldNames
  match ← fields.mapM id with
  | [line, endLine, column, endColumn, level, code, message] =>
    pure { line := ← line.natural? 32, endLine := ← endLine.natural? 32, column := ← column.natural? 32
           endColumn := ← endColumn.natural? 32, level := ← level? level, code := ← code.natural? 32
           message := ← message.string? }
  | _ => none

end Finding

def isReportBlank (c : Char) : Bool :=
  c == ' ' || c == '\t' || c == '\n' || c == '\r' || c.toNat == 12

def reportShape : Data.Shape :=
  .fields [("comments", .items (.fields (Finding.fieldNames.map fun name => (name, .whole))))]

/-- Reads the report of a linter program. A blank report has no findings. -/
def readReport (report : List Char) : Except LintError (List Finding) :=
  if report.all isReportBlank then .ok []
  else
    let found : Option (List Finding) := do
      match ← (← Data.ofShapedJson? reportShape report).exactFields? ["comments"] with
      | [some (.list comments)] => comments.mapM Finding.ofData?
      | _ => none
    match found with
    | some findings => .ok findings
    | none => .error .unreadable

/-- What runs programs, by the outputs of programs with their arguments and inputs. A program runs among files, which
it may change. -/
structure Runner where
  run : Files → String → List String → List Char → Except String (List Char) × Files

namespace Linter

def programArguments : List String := ["-s", "bash", "-f", "json1", "-"]

/-- The linter that runs a program. A script is the input of the program, and its output is the report. -/
def ofProgram (runner : Runner) (program : String) : Linter where
  lint files script := match runner.run files program programArguments script.toList with
    | (.error cause, files) => (.error (.notRun program cause), files)
    | (.ok report, files) => (readReport report, files)

end Linter

end PipelineLint.Shell
