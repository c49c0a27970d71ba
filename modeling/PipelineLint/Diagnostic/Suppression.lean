import PipelineLint.Diagnostic.Basic
import PipelineLint.Yaml.Tree
import PipelineLint.Yaml.Cursor

/-! # Suppression comments

Comments can hide findings: `# cci-ignore-file` all of them, `# cci-ignore` those that start on its line,
`# cci-ignore-next-line` those that start on the line after it, and `# cci-ignore-start` with
`# cci-ignore-end` those that start on the lines from the one to the other.
-/

namespace PipelineLint

open Text Yaml

/-- What a comment asks for. -/
inductive Directive where
  | wholeFile | thisLine | nextLine | rangeStart | rangeEnd
  deriving DecidableEq, Repr

namespace Directive

def word : Directive → String
  | .wholeFile => "cci-ignore-file"
  | .thisLine => "cci-ignore"
  | .nextLine => "cci-ignore-next-line"
  | .rangeStart => "cci-ignore-start"
  | .rangeEnd => "cci-ignore-end"

/-- The text is a number sign and a word, with blank characters around them. -/
def isWholeComment (word : String) (cs : List Char) : Bool :=
  match trimStart cs with
  | '#' :: rest => trim rest == word.toList
  | _ => false

/-- The text ends with a number sign and a word, with blank characters between and after them. -/
def endsComment (word : String) : List Char → Bool
  | [] => false
  | c :: cs => (c == '#' && trim cs == word.toList) || endsComment word cs

/-- What a comment asks for. The directive for its own line may stand at the end of other text. -/
def ofComment? (cs : List Char) : Option Directive :=
  if isWholeComment wholeFile.word cs then some .wholeFile
  else if endsComment thisLine.word cs then some .thisLine
  else if isWholeComment nextLine.word cs then some .nextLine
  else if isWholeComment rangeStart.word cs then some .rangeStart
  else if isWholeComment rangeEnd.word cs then some .rangeEnd
  else none

end Directive

structure LineRange where
  first : Nat
  last : Nat
  deriving DecidableEq, Repr, Inhabited

namespace LineRange

def contains (r : LineRange) (line : Nat) : Bool := r.first ≤ line && line ≤ r.last

end LineRange

/-- What the comments of a document hide. -/
structure Suppression where
  fileWide : Bool := false
  /-- Single lines, in increasing order and each once. -/
  lines : List Nat := []
  ranges : List LineRange := []
  deriving DecidableEq, Repr, Inhabited

namespace Suppression

def insertLine (line : Nat) : List Nat → List Nat
  | [] => [line]
  | other :: lines =>
    if line < other then line :: other :: lines
    else if line = other then other :: lines
    else other :: insertLine line lines

/-- Findings that start on the line are hidden. -/
def hidesLine (s : Suppression) (line : Nat) : Bool :=
  s.fileWide || s.lines.contains line || s.ranges.any (·.contains line)

def hides (s : Suppression) (d : Diagnostic) : Bool := s.hidesLine d.range.start.line

def filter (s : Suppression) (findings : List Diagnostic) : List Diagnostic :=
  findings.filter fun d => !s.hides d

structure Comment where
  text : List Char
  range : Range
  deriving DecidableEq, Repr, Inhabited

namespace Comment

def line (c : Comment) : Nat := c.range.start.line

/-- The comment opens a range inside of an open one. -/
def nestedStart (c : Comment) : Diagnostic :=
  .error .nestedIgnore c.range
    "cci-ignore-start must have a closing cci-ignore-end before trying to open a new ignore-range"

/-- The comment closes a range where none is open. -/
def unmatchedEnd (c : Comment) : Diagnostic :=
  .error .unmatchedIgnoreEnd c.range "cci-ignore-end must have an opening cci-ignore-start"

end Comment

/-- A range that was opened on a line is never closed. -/
def unclosedStart (line : Nat) : Diagnostic :=
  .error .unclosedIgnore (Range.ofCoordinates line 0 line 100)
    "cci-ignore-start is missing a closing cci-ignore-end"

/-- Reading the comments of a document from top to bottom: what is hidden so far, the line of a range
that is open, and the findings about ranges that do not pair up. -/
structure Scan where
  found : Suppression := {}
  openLine : Option Nat := none
  findings : List Diagnostic := []
  deriving Repr, Inhabited

namespace Scan

def comment (s : Scan) (c : Comment) : Scan :=
  match Directive.ofComment? c.text with
  | none => s
  | some .wholeFile => { s with found := { s.found with fileWide := true } }
  | some .thisLine => { s with found := { s.found with lines := insertLine c.line s.found.lines } }
  | some .nextLine =>
    { s with found := { s.found with lines := insertLine (c.line + 1) s.found.lines } }
  | some .rangeStart =>
    match s.openLine with
    | some _ => { s with findings := s.findings ++ [c.nestedStart] }
    | none => { s with openLine := some c.line }
  | some .rangeEnd =>
    match s.openLine with
    | some first =>
      { s with
        found := { s.found with ranges := s.found.ranges ++ [⟨first, c.line⟩] }, openLine := none }
    | none => { s with findings := s.findings ++ [c.unmatchedEnd] }

def finish (s : Scan) : Suppression × List Diagnostic :=
  (s.found, s.findings ++ s.openLine.toList.map unclosedStart)

end Scan

def comments (t : Tree) : List Comment :=
  (t.root.places.filter (·.node.kind = .comment)).map fun place =>
    ⟨t.textOf place.node, place.node.range⟩

/-- What the comments of a tree hide, and the findings about the comments themselves. -/
def ofTree (t : Tree) : Suppression × List Diagnostic :=
  ((comments t).foldl Scan.comment {}).finish

/-- The text of a line; empty if there is none. -/
def lineAt (source : List Char) (line : Nat) : List Char :=
  (Text.lines source)[line]?.getD []

/-- The quick fixes that hide a finding at a range: a comment on the line before it, and either a comment
at the end of its line or, for a range of several lines, comments around them. -/
def ignoreActions (range : Range) (source : List Char) : List Action :=
  let line := lineAt source range.start.line
  let indent := String.ofList (line.takeWhile isBlank)
  let lineStart : Position := ⟨range.start.line, 0⟩
  let before := Action.replace "Ignore this line" ⟨lineStart, lineStart⟩
    (indent ++ "# cci-ignore-next-line\n")
  if range.isSingleLine then
    let length := byteLength (dropEndWhile (· == '\r') line)
    let lineEnd : Position := ⟨range.start.line, max length range.stop.column⟩
    [before, Action.replace "Ignore this line (inline)" ⟨lineEnd, lineEnd⟩ " # cci-ignore"]
  else
    let after : Position := ⟨(range.stop.line + 1) % (maxCoordinate + 1), 0⟩
    [before, ⟨"Ignore this range",
      [⟨⟨lineStart, lineStart⟩, indent ++ "# cci-ignore-start\n"⟩,
       ⟨⟨after, after⟩, indent ++ "# cci-ignore-end\n"⟩], false⟩]

end Suppression

end PipelineLint
