import PipelineLint.Position

/-! # Findings

A diagnostic says what is wrong and where. It may point at further places, give help and offer quick
fixes, which are edits of the text.

Each kind of finding has a code: `E0` for broken YAML, `E1` for wrong structure, `E2` for references that
lead nowhere, `E3` for rules of the platform and advice, `E4` for suppression comments.
-/

namespace PipelineLint

/-- The kinds of findings. -/
inductive Code where
  | invalidSyntax | missingToken | missingDocument | unknownAnchor | invalidMerge | undecodable
  | duplicate | emptySection | invalidValue | missingValue | deprecatedKey | schemaViolation
  | undefinedJob | undefinedCommand | undefinedExecutor | undefinedParameter | missingParameter
  | typeMismatch | undefinedOrb | undefinedContext | dependencyCycle | undefinedRequirement
  | unused | invalidResourceClass | invalidImage | invalidXcode | imageNotFound | invalidJobType
  | invalidRun | orbUpdate | nameCollision | shellFinding | invalidRetention | ignoredConfiguration
  | orbUnavailable | deprecatedImage
  | unclosedIgnore | unmatchedIgnoreEnd | nestedIgnore
  deriving DecidableEq, Repr, Inhabited

namespace Code

def table : List (Code × String × String) :=
  [(.invalidSyntax, "E001", "invalid yaml syntax"),
   (.missingToken, "E002", "missing token"),
   (.missingDocument, "E003", "missing document"),
   (.unknownAnchor, "E004", "unknown anchor"),
   (.invalidMerge, "E005", "invalid merge value"),
   (.undecodable, "E006", "yaml decode error"),
   (.duplicate, "E100", "duplicate definition"),
   (.emptySection, "E101", "empty section"),
   (.invalidValue, "E102", "invalid value"),
   (.missingValue, "E103", "missing value"),
   (.deprecatedKey, "E104", "deprecated key"),
   (.schemaViolation, "E105", "schema violation"),
   (.undefinedJob, "E200", "undefined job"),
   (.undefinedCommand, "E201", "undefined command"),
   (.undefinedExecutor, "E202", "undefined executor"),
   (.undefinedParameter, "E203", "undefined parameter"),
   (.missingParameter, "E204", "missing parameter"),
   (.typeMismatch, "E205", "parameter type mismatch"),
   (.undefinedOrb, "E206", "undefined orb"),
   (.undefinedContext, "E207", "undefined context"),
   (.dependencyCycle, "E208", "dependency cycle"),
   (.undefinedRequirement, "E209", "undefined requirement"),
   (.unused, "E300", "unused definition"),
   (.invalidResourceClass, "E301", "invalid resource class"),
   (.invalidImage, "E302", "invalid image"),
   (.invalidXcode, "E303", "invalid xcode version"),
   (.imageNotFound, "E304", "docker image not found"),
   (.invalidJobType, "E305", "invalid job type"),
   (.invalidRun, "E306", "invalid run step"),
   (.orbUpdate, "E307", "orb update available"),
   (.nameCollision, "E308", "name collision"),
   (.shellFinding, "E309", "shell lint finding"),
   (.invalidRetention, "E310", "invalid retention"),
   (.ignoredConfiguration, "E311", "ignored configuration"),
   (.orbUnavailable, "E312", "orb unavailable"),
   (.deprecatedImage, "E313", "deprecated image"),
   (.unclosedIgnore, "E400", "unclosed ignore range"),
   (.unmatchedIgnoreEnd, "E401", "unmatched ignore end"),
   (.nestedIgnore, "E402", "nested ignore range")]

/-- Every kind in the order of the codes. -/
def all : List Code := table.map (·.1)

def text (code : Code) : String :=
  ((table.find? (·.1 = code)).map (·.2.1)).getD ""

def description (code : Code) : String :=
  ((table.find? (·.1 = code)).map (·.2.2)).getD ""

def ofText? (text : String) : Option Code :=
  (table.find? (·.2.1 = text)).map (·.1)

/-- The kind is one of broken YAML. -/
def isSyntax : Code → Bool
  | .invalidSyntax | .missingToken | .missingDocument | .unknownAnchor | .invalidMerge
  | .undecodable => true
  | _ => false

end Code

/-- How grave a finding is, the gravest first. -/
inductive Severity where
  | error | warning | information | hint
  deriving DecidableEq, Repr, Inhabited

namespace Severity

/-- The place in the order from grave to harmless. -/
def rank : Severity → Nat
  | .error => 0
  | .warning => 1
  | .information => 2
  | .hint => 3

def graver (s t : Severity) : Bool := s.rank < t.rank

def word : Severity → String
  | .error => "error"
  | .warning => "warning"
  | .information => "info"
  | .hint => "hint"

end Severity

/-- A replacement of a part of the text. -/
structure Edit where
  range : Range
  newText : String
  deriving DecidableEq, Repr, Inhabited

structure Action where
  title : String
  edits : List Edit
  /-- The fix to take where several are offered. -/
  preferred : Bool := false
  deriving DecidableEq, Repr, Inhabited

namespace Action

def replace (title : String) (range : Range) (newText : String) : Action :=
  ⟨title, [⟨range, newText⟩], false⟩

/-- The same fix, to be taken first. -/
def prefer (a : Action) : Action := { a with preferred := true }

end Action

structure Label where
  range : Range
  message : String
  /-- The place of the finding itself, not one that explains it. -/
  primary : Bool
  deriving DecidableEq, Repr, Inhabited

/-- Marks of findings about things that can go. -/
inductive Tag where
  | deprecated | unnecessary
  deriving DecidableEq, Repr, Inhabited

structure Diagnostic where
  severity : Severity
  code : Option Code := none
  message : String
  range : Range := {}
  labels : List Label := []
  help : Option String := none
  actions : List Action := []
  tags : List Tag := []
  deriving DecidableEq, Repr, Inhabited

namespace Diagnostic

def error (code : Code) (range : Range) (message : String) : Diagnostic :=
  { severity := .error, code, message, range }

def warning (code : Code) (range : Range) (message : String) : Diagnostic :=
  { severity := .warning, code, message, range }

/-- Advice of a kind at a place. -/
def information (code : Code) (range : Range) (message : String) : Diagnostic :=
  { severity := .information, code, message, range }

def hint (code : Code) (range : Range) (message : String) : Diagnostic :=
  { severity := .hint, code, message, range }

def isError (d : Diagnostic) : Bool := d.severity = .error

/-- The same finding of another kind. -/
def withCode (d : Diagnostic) (code : Code) : Diagnostic := { d with code := some code }

/-- The same finding at another place. -/
def withRange (d : Diagnostic) (range : Range) : Diagnostic := { d with range }

def withLabel (d : Diagnostic) (range : Range) (message : String) : Diagnostic :=
  { d with range, labels := d.labels ++ [⟨range, message, true⟩] }

/-- The same finding with a further place that explains it. -/
def withExplanation (d : Diagnostic) (range : Range) (message : String) : Diagnostic :=
  { d with labels := d.labels ++ [⟨range, message, false⟩] }

def withHelp (d : Diagnostic) (help : String) : Diagnostic := { d with help := some help }

/-- The same finding with a further quick fix. -/
def withAction (d : Diagnostic) (action : Action) : Diagnostic :=
  { d with actions := d.actions ++ [action] }

/-- The same finding with a mark; a mark is set once. -/
def withTag (d : Diagnostic) (tag : Tag) : Diagnostic :=
  if d.tags.contains tag then d else { d with tags := d.tags ++ [tag] }

/-- One line for a finding: severity, code and message. -/
def line (d : Diagnostic) : String :=
  d.severity.word ++ (match d.code with | some code => "[" ++ code.text ++ "]" | none => "") ++ ": " ++
    d.message

end Diagnostic

def hasErrors (findings : List Diagnostic) : Bool :=
  findings.any Diagnostic.isError

/-- One line for several findings: the first and the number of the others. -/
def summaryLine : List Diagnostic → String
  | [] => ""
  | [d] => d.line
  | d :: more => d.line ++ " (+" ++ toString more.length ++ " more)"

end PipelineLint
