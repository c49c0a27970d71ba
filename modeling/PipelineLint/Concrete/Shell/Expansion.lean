import PipelineLint.Concrete.Shell.Pattern
import PipelineLint.Concrete.Shell.Process

/-! # Expansion of words

When a script runs, the pieces of a word are replaced by texts. What comes from an unquoted piece is split into
fields, and a field with an unquoted star, question mark or bracket stands for the paths that it matches.
-/

namespace PipelineLint.Shell

open Text

inductive Part where
  /-- A character; it may separate fields if it comes from an unquoted piece that is not literal. -/
  | glyph (glyph : Glyph) (separates : Bool)
  /-- The start of quoted text, which is a field even if it is empty. -/
  | quotation
  | boundary
  deriving DecidableEq, Repr, Inhabited

namespace Part

def literal (quoted : Bool) (text : List Char) : List Part :=
  (if quoted then [.quotation] else []) ++ text.map fun c => .glyph (c, quoted) false

def value (quoted : Bool) (text : List Char) : List Part :=
  (if quoted then [.quotation] else []) ++ text.map fun c => .glyph (c, quoted) (!quoted)

/-- Lets the unquoted characters of a word separate fields. -/
def loosen : Part → Part
  | .glyph (c, quoted) separates => .glyph (c, quoted) (separates || !quoted)
  | part => part

/-- The characters of parts, with a blank where an argument ends. -/
def glyphs (parts : List Part) : List Glyph :=
  parts.filterMap fun part => match part with
    | .glyph g _ => some g
    | .quotation => none
    | .boundary => some (' ', true)

def text (parts : List Part) : List Char := (glyphs parts).map (·.1)

def isBlank (c : Char) : Bool := c == ' ' || c == '\t' || c == '\n'

/-- The fields of parts. `field` is the field that has begun; `closed` tells that blanks have ended the one
before it. -/
def split (separators : List Char) (field : Option (List Glyph)) (closed : Bool) : List Part → List (List Glyph)
  | [] => field.toList
  | .quotation :: parts => split separators (some (field.getD [])) false parts
  | .boundary :: parts => field.toList ++ split separators none false parts
  | .glyph g separates :: parts =>
    if !(separates && separators.contains g.1) then
      split separators (some (field.getD [] ++ [g])) false parts
    else if isBlank g.1 then match field with
      | some glyphs => glyphs :: split separators none true parts
      | none => split separators none closed parts
    else if closed then split separators none false parts
    else field.getD [] :: split separators none false parts

end Part

namespace Process

def isPattern (gs : List Glyph) : Bool := gs.any fun (c, quoted) => !quoted && ['*', '?', '['].contains c

def pathParts : List Glyph → List (List Glyph)
  | [] => [[]]
  | (c, quoted) :: gs =>
    if c == '/' then [] :: pathParts gs
    else match pathParts gs with
      | [] => [[(c, quoted)]]
      | part :: parts => ((c, quoted) :: part) :: parts

/-- The paths below a directory that parts of a path match, in order. A name that starts with a point is matched
only by a pattern that does. -/
def matching (p : Process) (reached : String) : List (List Glyph) → List String
  | [] => if (p.place reached).isOk then [reached] else []
  | part :: parts =>
    if isPattern part then
      let inside := ((p.files.list (p.locate (if reached.isEmpty then "." else reached))).toOption.getD []).filter
        fun name => matchesAll (pattern part) name.toList &&
          (name.toList.head? != some '.' || part.head?.any (·.1 == '.'))
      (inside.mergeSort (· ≤ ·)).flatMap fun name => matching p (Path.child reached name) parts
    else matching p (Path.child reached (String.ofList (part.map (·.1)))) parts

/-- The fields of a word: the paths that it matches, or else its text. -/
def fields (p : Process) (parts : List Part) : List String :=
  (Part.split p.separators none false parts).flatMap fun field =>
    let text := String.ofList (field.map (·.1))
    let isAbsolute := field.head?.any (·.1 == '/')
    let found := if isPattern field && !isAbsolute then p.matching "" (pathParts field) else []
    if found.isEmpty then [text] else found

end Process

inductive Use where
  | value
  | length
  /-- A word stands in for the value by a sign: if there is none (`-`), to be kept (`=`), or to complain (`?`), or
  if there is one (`+`). An empty value may count as none. -/
  | word (sign : Char) (orEmpty : Bool) (word : List Char)
  | cut (atEnd longest : Bool) (pattern : List Char)
  deriving DecidableEq, Repr, Inhabited

namespace Use

def name (cs : List Char) : List Char × List Char :=
  match cs with
  | [] => ([], [])
  | c :: rest =>
    if specialNames.contains c then ([c], rest)
    else if c.isDigit then (cs.takeWhile Char.isDigit, cs.dropWhile Char.isDigit)
    else (cs.takeWhile isNameChar, cs.dropWhile isNameChar)

def ofRest? (cs : List Char) : Option Use :=
  match cs with
  | [] => some .value
  | '%' :: '%' :: cs => some (.cut true true cs)
  | '%' :: cs => some (.cut true false cs)
  | '#' :: '#' :: cs => some (.cut false true cs)
  | '#' :: cs => some (.cut false false cs)
  | ':' :: sign :: cs => if ['-', '=', '?', '+'].contains sign then some (.word sign true cs) else none
  | sign :: cs => if ['-', '=', '?', '+'].contains sign then some (.word sign false cs) else none

/-- The name of a parameter, and what is done with its value. -/
def read? (cs : List Char) : Option (String × Use) :=
  match cs with
  | '#' :: c :: rest =>
    let (found, after) := name (c :: rest)
    if !found.isEmpty && after.isEmpty then some (String.ofList found, .length) else none
  | _ =>
    let (found, after) := name cs
    if found.isEmpty then none else (ofRest? after).map fun use => (String.ofList found, use)

def trim (atEnd longest : Bool) (p : List Atom) (text : List Char) : List Char :=
  let sizes := List.range (text.length + 1)
  let sizes := if longest then sizes.reverse else sizes
  let size := sizes.find? fun n =>
    matchesAll p (if atEnd then text.drop (text.length - n) else text.take n)
  match size with
  | none => text
  | some n => if atEnd then text.take (text.length - n) else text.drop n

end Use

end PipelineLint.Shell
