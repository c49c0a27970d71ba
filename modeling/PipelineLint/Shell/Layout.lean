import PipelineLint.Model.Step
import PipelineLint.Shell.Linter

/-! # Scripts in documents

The command of a run step is linted as a script with a line in front. A layout knows where the lines of a
command lie in the document, so that a place in the script leads to a place in the document.
-/

namespace PipelineLint.Shell

open Text

def firstScriptLine : String := "#!/bin/bash\n"

def scriptOf (command : String) : String := firstScriptLine ++ command ++ "\n"

/-- The shell of a step can run what the linter understands. -/
def isBash : Option String → Bool
  | none => true
  | some shell => shell == "bash" || startsWith shell.toList "/bin/bash".toList

/-- The command of a step is linted: it is there and is known before the pipeline runs. -/
def isLintable (r : Run) : Bool :=
  isBash r.shell && !r.command.isEmpty && !Reference.hasSubstitution r.rawCommand

/-- Where the lines of a command lie in the document. -/
structure Layout where
  firstLine : Nat
  /-- The column where the first line starts. -/
  firstColumn : Nat
  /-- The column where the other lines start. -/
  indent : Nat
  /-- Lines are joined, so that places are known in the first line only. -/
  isFolded : Bool
  deriving DecidableEq, Repr

namespace Layout

/-- Lines and columns have 32 bits; past the last one they start again. -/
def wrap (n : Nat) : Nat := n % (maxCoordinate + 1)

/-- The number of bytes in front of a line. -/
def margin (line : List Char) : Nat := byteLength (line.takeWhile isBlank)

def least : List Nat → Nat
  | [] => 0
  | n :: ns => ns.foldl min n

/-- The layout of a block: the lines after the indicator, less their common margin. -/
def ofBlock (start : Position) (raw : List Char) : Layout :=
  let body := (lines raw).drop 1
  let indent := least ((body.filter (!allBlank ·)).map margin)
  let skipped := (body.findIdx? (!allBlank ·)).getD 0
  { firstLine := wrap (start.line + 1 + skipped), firstColumn := indent, indent
    isFolded := raw.head? == some '>' }

def ofRun (r : Run) : Layout :=
  let start := r.commandRange.start
  match r.rawCommand.toList with
  | '|' :: cs => ofBlock start ('|' :: cs)
  | '>' :: cs => ofBlock start ('>' :: cs)
  | raw =>
    let isQuoted := raw.head? == some '"' || raw.head? == some '\''
    { firstLine := start.line, firstColumn := wrap (start.column + if isQuoted then 1 else 0), indent := 0
      isFolded := false }

/-- The place in the document of a line and a column of the script. -/
def position (l : Layout) (line column : Nat) : Position :=
  let offset := line - 2
  let right := column - 1
  if l.isFolded then ⟨l.firstLine, wrap (l.firstColumn + right)⟩
  else ⟨wrap (l.firstLine + offset), wrap ((if offset = 0 then l.firstColumn else l.indent) + right)⟩

end Layout

/-- What is said about a finding in the script of a step. -/
def report (l : Layout) (f : Finding) : Diagnostic :=
  let start := l.position f.line f.column
  let stop := l.position f.endLine f.endColumn
  ({ severity := f.level.severity, code := some .shellFinding
     message := "SC" ++ toString f.code ++ ": " ++ f.message
     range := ⟨start, if stop < start then start else stop⟩ } : Diagnostic).withHelp
    ("https://www.shellcheck.net/wiki/SC" ++ toString f.code)

end PipelineLint.Shell
