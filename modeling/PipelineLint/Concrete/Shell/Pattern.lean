import PipelineLint.Text.Lines

/-! # Patterns

The patterns of shell scripts: a star stands for any text, a question mark for any character and brackets for
one of some characters; quoted characters stand for themselves.
-/

namespace PipelineLint.Shell

/-- A character of a word, and whether it is quoted. -/
abbrev Glyph := Char × Bool

/-- A set of characters: ranges, or all characters outside of them. -/
structure CharSet where
  inverted : Bool := false
  ranges : List (Char × Char) := []
  deriving DecidableEq, Repr, Inhabited

namespace CharSet

def all : CharSet := { inverted := true }

def contains (s : CharSet) (c : Char) : Bool :=
  (s.ranges.any fun (first, last) => first ≤ c && c ≤ last) != s.inverted

def classes : List (String × List (Char × Char)) :=
  [("digit", [('0', '9')]), ("alpha", [('a', 'z'), ('A', 'Z')]), ("lower", [('a', 'z')]),
   ("upper", [('A', 'Z')]), ("alnum", [('0', '9'), ('a', 'z'), ('A', 'Z')]),
   ("space", [(' ', ' '), ('\t', '\r')]), ("blank", [(' ', ' '), ('\t', '\t')]),
   ("punct", [('!', '/'), (':', '@'), ('[', Char.ofNat 96), ('\x7b', '~')]),
   ("xdigit", [('0', '9'), ('a', 'f'), ('A', 'F')])]

/-- The class between colons that a text starts with, and the rest. -/
def class? (cs : List Char) : Option (List (Char × Char) × List Char) :=
  classes.findSome? fun (name, ranges) =>
    (Text.dropPrefix? ("[:" ++ name ++ ":]").toList cs).map fun rest => (ranges, rest)

/-- Reads the ranges of a set up to its closing bracket, which may stand first without closing it. -/
def ranges? (first : Bool) : Nat → List Char → Option (List (Char × Char) × List Char)
  | 0, _ => none
  | _, [] => none
  | fuel + 1, c :: cs =>
    if c == ']' && !first then some ([], cs)
    else match class? (c :: cs) with
      | some (found, rest) => (ranges? false fuel rest).map fun (more, rest) => (found ++ more, rest)
      | none => match cs with
        | '-' :: d :: rest =>
          if d == ']' then (ranges? false fuel cs).map fun (more, rest) => ((c, c) :: more, rest)
          else (ranges? false fuel rest).map fun (more, rest) => ((c, d) :: more, rest)
        | _ => (ranges? false fuel cs).map fun (more, rest) => ((c, c) :: more, rest)

def read? (cs : List Char) : Option (CharSet × List Char) :=
  let (inverted, body) := match cs with
    | '!' :: rest => (true, rest)
    | '^' :: rest => (true, rest)
    | _ => (false, cs)
  (ranges? true (body.length + 1) body).map fun (ranges, rest) => (⟨inverted, ranges⟩, rest)

end CharSet

structure Atom where
  set : CharSet
  often : Bool := false
  deriving DecidableEq, Repr, Inhabited

namespace Atom

def one (c : Char) : Atom := { set := { ranges := [(c, c)] } }

end Atom

def patternOf : Nat → List Glyph → List Atom
  | 0, _ => []
  | _, [] => []
  | fuel + 1, (c, quoted) :: gs =>
    if quoted then .one c :: patternOf fuel gs
    else if c == '*' then { set := .all, often := true } :: patternOf fuel gs
    else if c == '?' then { set := .all } :: patternOf fuel gs
    else if c == '[' then match CharSet.read? (gs.map (·.1)) with
      | some (set, rest) => { set } :: patternOf fuel (gs.drop (gs.length - rest.length))
      | none => .one c :: patternOf fuel gs
    else .one c :: patternOf fuel gs

def pattern (gs : List Glyph) : List Atom := patternOf (gs.length + 1) gs

def matchesAll : List Atom → List Char → Bool
  | [], cs => cs.isEmpty
  | a :: more, cs =>
    if a.often then matchesAny a.set (matchesAll more) cs
    else match cs with
      | [] => false
      | c :: cs => a.set.contains c && matchesAll more cs
where
  /-- A text consists of some characters of a set and a rest that satisfies a condition. -/
  matchesAny (set : CharSet) (rest : List Char → Bool) : List Char → Bool
    | [] => rest []
    | c :: cs => rest (c :: cs) || (set.contains c && matchesAny set rest cs)

end PipelineLint.Shell
