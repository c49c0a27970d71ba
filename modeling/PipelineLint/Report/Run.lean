import PipelineLint.AnalysisError
import PipelineLint.Data.Value
import PipelineLint.Diagnostic.Basic
import PipelineLint.Session.Analyzer
import PipelineLint.Settings.File

/-! # Runs

A run of the program reads the settings, checks one file and lists what it has found as JSON, with lines and columns
counted from zero. `Failure.notes` splits the reason of a run without success into notes, with the parts of the text
that each of them is about. A command line names the file to check, behind `-c` or `--config` the file of the
settings, and at last the files of orbs.
-/

namespace PipelineLint

/-- Why a run ends without success. -/
inductive Failure where
  | analysis (error : AnalysisError)
  /-- The findings cannot be written. -/
  | unwritable (cause : String)
  /-- There are errors among the findings in a file. -/
  | findings (path : String) (errors : Nat)
  deriving DecidableEq, Repr, Inhabited

namespace Failure

def message : Failure → String
  | analysis e => e.message
  | unwritable cause => "Failed to write report: " ++ cause
  | findings path errors => toString errors ++ " error(s) found in " ++ path

def code? : Failure → Option String
  | analysis (.unreadable _) => some "ciyaml::io"
  | analysis (.broken _ _) => none
  | analysis (.settings _) => some "ciyaml::config"
  | analysis (.registry _) => some "ciyaml::registry"
  | unwritable _ => some "ciyaml::output"
  | findings _ _ => some "ciyaml::findings"

/-- The text of the error behind a failure. -/
def cause? : Failure → Option String
  | .analysis e => e.cause?
  | .unwritable cause => some cause
  | .findings _ _ => none

end Failure

/-- How grave a note is. -/
inductive Grade where
  | error | warning | advice
  deriving DecidableEq, Repr, Inhabited

def Severity.grade : Severity → Grade
  | .error => .error
  | .warning => .warning
  | .information => .advice
  | .hint => .advice

/-- A part of a text, in bytes. -/
structure Span where
  offset : Nat
  length : Nat
  message : Option String
  /-- The part is the one that the note is about, not one that explains it. -/
  primary : Bool
  deriving DecidableEq, Repr, Inhabited

namespace Span

/-- The offset of a position. Positions behind the last line are at the end of the text. -/
def offsetOf (source : List Char) (p : Position) : Nat :=
  (Text.offsetOf? p source).getD (Text.byteLength source)

/-- The part of a text in a range; it is empty if the range ends before its start. -/
def ofRange (source : List Char) (r : Range) (message : Option String) (primary : Bool) : Span :=
  let start := offsetOf source r.start
  ⟨start, offsetOf source r.stop - start, message, primary⟩

end Span

/-- What is told about one finding or failure. -/
structure Note where
  message : String
  code : Option String := none
  grade : Option Grade := none
  help : Option String := none
  /-- The parts of the text that the note is about, if there is a text. -/
  spans : Option (List Span) := none
  cause : Option String := none
  deriving DecidableEq, Repr, Inhabited

namespace Note

/-- The note about a finding: it is about its labels, or else about its range. -/
def ofFinding (source : List Char) (d : Diagnostic) : Note :=
  { message := d.message
    code := d.code.map Code.text
    grade := some d.severity.grade
    help := d.help
    spans := some <|
      if d.labels.isEmpty then [.ofRange source d.range none true]
      else d.labels.map fun label => .ofRange source label.range (some label.message) label.primary }

end Note

/-- The notes about a failure: one about each finding of a text that cannot be used, and else a single one. -/
def Failure.notes : Failure → List Note
  | .analysis (.broken found source) => found.map (.ofFinding source.toList)
  | failure => [{ message := failure.message, code := failure.code?, cause := failure.cause? }]

namespace Report

open Data

def ofPosition (p : Position) : Data :=
  .map [("line", .integer p.line), ("character", .integer p.column)]

def ofRange (r : Range) : Data := .map [("start", ofPosition r.start), ("end", ofPosition r.stop)]

/-- A finding in a listing. Help and quick fixes are left out where there are none. -/
def ofFinding (d : Diagnostic) : Data :=
  .map <|
    [("severity", .text d.severity.word),
     ("code", match d.code with | some code => .text code.text | none => .null),
     ("message", .text d.message),
     ("range", ofRange d.range)] ++
    (match d.help with | some help => [("help", .text help)] | none => []) ++
    (if d.actions.isEmpty then [] else [("fixes", .list (d.actions.map fun action => .text action.title))])

def listing (file : String) (findings : List Diagnostic) : String :=
  pretty "" (.map [("file", .text file), ("diagnostics", .list (findings.map ofFinding))])

end Report

structure Request where
  /-- The file to check. -/
  input : String
  settingsFile : Option String := none
  deriving DecidableEq, Repr, Inhabited

namespace Request

/-- Checks the file that a request names. `system` is the text of the settings of the system. -/
def document (host : Host) (r : Request) (files : Files) (system : Option String) : Except AnalysisError Document := do
  let settings ← Settings.find host.readToml files r.settingsFile system
  let a ← Analyzer.ofSettings host settings files
  (a.analyzeFile { files } r.input).1

/-- What a run writes, and why it ends without success. -/
def run (host : Host) (r : Request) (files : Files) (system : Option String) : String × Option Failure :=
  match r.document host files system with
  | .error e => ("", some (.analysis e))
  | .ok d =>
    let errors := d.visible.countP Diagnostic.isError
    (Report.listing r.input d.visible ++ "\n", if errors = 0 then none else some (.findings r.input errors))

end Request

/-- What a command line asks for. -/
structure Arguments where
  request : Request
  orbFiles : List String := []
  deriving DecidableEq, Repr, Inhabited

namespace Arguments

/-- How a command line is written. -/
def usage : String := "usage: pipeline-lint [--config FILE] INPUT [ORB_FILE ...]"

/-- Reads words into the file of the settings, which is named once at most, and the names of other files. -/
def split? (settingsFile : Option String) : List String → Option (Option String × List String)
  | [] => some (settingsFile, [])
  | word :: words =>
    if word == "-c" || word == "--config" then
      match settingsFile, words with
      | none, path :: words => split? (some path) words
      | _, _ => none
    else if Text.startsWith word.toList ['-'] then none
    else (split? settingsFile words).map fun (found, files) => (found, word :: files)

def read? (words : List String) : Option Arguments :=
  match split? none words with
  | some (settingsFile, input :: orbFiles) => some ⟨⟨input, settingsFile⟩, orbFiles⟩
  | _ => none

def settingsFile (a : Arguments) : String := a.request.settingsFile.getD Settings.projectFile

/-- The files that a run reads before it knows the settings. -/
def firstFiles (a : Arguments) : List String := a.request.input :: a.settingsFile :: a.orbFiles

/-- The files that a run reads because the settings name them. -/
def furtherFiles (host : Host) (a : Arguments) (files : Files) : List String :=
  match (files.read a.settingsFile).toOption.bind (Settings.read? host.readToml) with
  | none => []
  | some settings =>
    settings.schemaFile.toList ++ if settings.lintsScripts then [settings.linterProgram] else []

end Arguments

end PipelineLint
