import PipelineLint.Text.Lines

/-! # Parameter references

A text may refer to parameters: `<< parameters.x >>` to one of the enclosing job, command or executor,
`<< pipeline.parameters.x >>` to one of the pipeline. `Reference.match?` reads a reference at the start
of a text and `Reference.findAll` collects all of them. Offsets count bytes.
-/

namespace PipelineLint

/-- Whose parameters a reference looks into. -/
inductive Scope where
  /-- Those of the enclosing job, command or executor. -/
  | enclosing
  | pipeline
  deriving DecidableEq, Repr

namespace Scope

def words : Scope → String
  | .enclosing => "parameters"
  | .pipeline => "pipeline.parameters"

end Scope

/-- A reference to a parameter, with its place in the text that was searched. -/
structure Reference where
  name : String
  fullName : String
  scope : Scope
  start : Nat
  stop : Nat
  deriving DecidableEq, Repr

namespace Reference

open Text

/-- The characters of parameter names. -/
def isNameChar (c : Char) : Bool :=
  c.isAlphanum || c == '_' || c == '-'

/-- What a reference at the start of a text consists of: its scope, the name as written, all of its
characters, and the text after it. -/
structure Match where
  scope : Scope
  name : List Char
  whole : List Char
  rest : List Char
  deriving DecidableEq, Repr

/-- Reads `<<`, blank characters and the words of a scope with the point after them. -/
def opening? (cs : List Char) : Option (Scope × List Char) := do
  let inner := trimStart (← dropPrefix? "<<".toList cs)
  match dropPrefix? "parameters.".toList inner with
  | some rest => pure (.enclosing, rest)
  | none => pure (.pipeline, ← dropPrefix? "pipeline.parameters.".toList inner)

/-- Reads a complete reference at the start of a text. -/
def match? (cs : List Char) : Option Match := do
  let (scope, named) ← opening? cs
  let rest ← dropPrefix? ">>".toList (trimStart (named.dropWhile isNameChar))
  pure ⟨scope, named.takeWhile isNameChar, cs.take (cs.length - rest.length), rest⟩

/-- The dotted path of a reference and its last part. Only spaces are removed between the angle
brackets and the path. -/
def pathAndName (reference : List Char) : List Char × List Char :=
  let path := trimWhile (· == ' ') (trimWhile (· == '>') (trimWhile (· == '<') reference))
  (path, ((splitAtChar '.' path).getLast?).getD [])

/-- Every reference of a text, from left to right; the search goes on after the end of each. -/
def findAll (cs : List Char) : List Reference :=
  go 0 0 cs
where
  /-- Searches after `skip` characters; `offset` is the place of the first character. -/
  go : Nat → Nat → List Char → List Reference
    | _, _, [] => []
    | skip + 1, offset, c :: cs => go skip (offset + c.utf8Size) cs
    | 0, offset, c :: cs =>
      match match? (c :: cs) with
      | none => go 0 (offset + c.utf8Size) cs
      | some found =>
        let (path, name) := pathAndName found.whole
        ⟨String.ofList name, String.ofList path, found.scope, offset,
          offset + byteLength found.whole⟩ ::
          go (found.whole.length - 1) (offset + c.utf8Size) cs

/-- Some end part of a text satisfies `p`. -/
def anySuffix (p : List Char → Bool) : List Char → Bool
  | [] => p []
  | c :: cs => p (c :: cs) || anySuffix p cs

def isOnly (text : String) : Bool :=
  match match? text.toList with
  | some found => found.rest.isEmpty
  | none => false

def occursIn (text : String) : Bool :=
  anySuffix (fun cs => (match? cs).isSome) text.toList

def startsSubstitution (cs : List Char) : Bool :=
  match dropPrefix? "<<".toList cs with
  | some inner => startsWith (inner.dropWhile fun c => c != '<' && c != '>') ">>".toList
  | none => false

/-- The text has a substitution of any kind, also one of a matrix or of a pipeline value. -/
def hasSubstitution (text : String) : Bool :=
  anySuffix startsSubstitution text.toList

/-- What may follow where a name is still missing: nothing or a closing bracket. -/
def closesEmpty (cs : List Char) : Bool :=
  match trimStart cs with
  | [] => true
  | c :: _ => c == '>'

/-- The text has a reference whose name is still missing. -/
def isPartial (text : String) : Bool :=
  anySuffix (fun cs => match opening? cs with
    | some (_, rest) => closesEmpty rest
    | none => false) text.toList

/-- The text has a matrix reference whose name is still missing. -/
def isPartialMatrix (text : String) : Bool :=
  anySuffix (fun cs => match dropPrefix? "<<".toList cs with
    | some inner => match dropPrefix? "matrix.".toList (trimStart inner) with
      | some rest => closesEmpty rest
      | none => false
    | none => false) text.toList

/-- The reference around a byte offset: of the references on the line of the offset, the last that
starts at or before it. -/
def usedAt (cs : List Char) (offset : Nat) : Except InsideCharacter (Option Reference) :=
  let offset := min offset (byteLength cs)
  if isBoundary offset cs then
    let head := ((takeBytes offset cs).reverse.takeWhile (· ≠ '\n')).reverse
    let tail := (dropBytes offset cs).takeWhile (· ≠ '\n')
    let lineStart := offset - byteLength head
    let before := (findAll (head ++ tail)).filter fun r => lineStart + r.start ≤ offset
    .ok (before.getLast?.map fun r => { r with start := lineStart + r.start, stop := lineStart + r.stop })
  else .error ⟨offset⟩

end Reference

end PipelineLint
