import PipelineLint.Text.Lines

/-! # Violations of schemas

A violation says at a pointer which part of the data does not meet a condition. A pointer is the way to the part: the
names and the numbers of items on it, each after a slash. Slashes and tildes in names are written `~1` and `~0`.
-/

namespace PipelineLint.Schema

/-- A character of a part of a pointer as it is written. -/
def escapeChar (c : Char) : List Char :=
  if c == '~' then ['~', '0'] else if c == '/' then ['~', '1'] else [c]

def escape (part : List Char) : List Char := part.flatMap escapeChar

/-- What is written for a part of a pointer, read back. -/
def unescape : List Char → List Char
  | '~' :: '0' :: cs => '~' :: unescape cs
  | '~' :: '1' :: cs => '/' :: unescape cs
  | c :: cs => c :: unescape cs
  | [] => []

def pointer (path : List String) : String :=
  String.ofList (path.flatMap fun part => '/' :: escape part.toList)

def segments (pointer : String) : List String :=
  ((Text.splitAtChar '/' pointer.toList).drop 1).map fun part => String.ofList (unescape part)

theorem unescape_escape (part : List Char) : unescape (escape part) = part := by
  induction part with
  | nil => rfl
  | cons c part ih =>
    simp only [escape, List.flatMap_cons] at ih ⊢
    by_cases h : c = '~'
    · simp [escapeChar, h, unescape, ih]
    · by_cases h' : c = '/'
      · simp [escapeChar, h', unescape, ih]
      · simp only [escapeChar, beq_iff_eq, h, h', if_false, List.singleton_append]
        rw [unescape, ih]
        · intro cs h''; exact absurd h'' h
        · intro cs h''; exact absurd h'' h

/-- A part of the data does not meet a condition. -/
structure Violation where
  pointer : String
  message : String
  deriving DecidableEq, Repr, Inhabited

namespace Violation

/-- The names and the numbers of items on the way to the part. -/
def path (v : Violation) : List String := segments v.pointer

end Violation

end PipelineLint.Schema
