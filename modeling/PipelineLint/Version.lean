import PipelineLint.Text.Integer

/-! # Versions

A version is three numbers with optional pre-release and build labels. Versions are ordered by the
numbers, then by the pre-release (a version without one comes last), then by the build. A partial version
such as `5.1` selects the versions that begin with its numbers.
-/

namespace PipelineLint

structure Version where
  major : Nat
  minor : Nat
  patch : Nat
  /-- The labels of a pre-release; a release has none. -/
  pre : List (List Char) := []
  build : List (List Char) := []
  deriving DecidableEq, Repr, Inhabited

namespace Version

open Text

def isLabelChar (c : Char) : Bool := c.isAlphanum || c == '-'

def isNumeric (label : List Char) : Bool := label.all Char.isDigit

/-- The digits begin with a zero that could be left out. -/
def hasExtraZero (digits : List Char) : Bool :=
  digits.head? == some '0' && digits.length > 1

/-- Reads the digits of a number at the start of a text, which have no extra zero and fit into 64 bits. -/
def number? (cs : List Char) : Option (Nat × List Char) := do
  let digits := cs.takeWhile Char.isDigit
  if hasExtraZero digits then none
  else pure (← unsigned? 64 digits, cs.dropWhile Char.isDigit)

/-- Reads labels between points at the start of a text; none of them is empty. -/
def labels? (cs : List Char) : Option (List (List Char) × List Char) :=
  let inLabels (c : Char) : Bool := isLabelChar c || c == '.'
  let labels := splitAtChar '.' (cs.takeWhile inLabels)
  if labels.any List.isEmpty then none else some (labels, cs.dropWhile inLabels)

/-- Reads a complete version: three numbers, labels after `-` and labels after `+`. -/
def strict? (cs : List Char) : Option Version := do
  let (major, rest) ← number? cs
  let (minor, rest) ← number? (← dropPrefix? ['.'] rest)
  let (patch, rest) ← number? (← dropPrefix? ['.'] rest)
  let (pre, rest) ← match rest with
    | '-' :: more => labels? more
    | _ => pure ([], rest)
  if pre.any fun label => isNumeric label && hasExtraZero label then none
  let (build, rest) ← match rest with
    | '+' :: more => labels? more
    | _ => pure ([], rest)
  if rest.isEmpty then pure ⟨major, minor, patch, pre, build⟩ else none

/-- The text without blank characters around it and letters `v` in front. -/
def bare (cs : List Char) : List Char := (trim cs).dropWhile (· == 'v')

/-- Reads a version that may lack its last numbers; they count as zero. -/
def read? (cs : List Char) : Option Version :=
  match strict? (bare cs) with
  | some version => some version
  | none => do
    match ← (splitAtChar '.' (bare cs)).mapM (unsigned? 64) with
    | [major] => pure ⟨major, 0, 0, [], []⟩
    | [major, minor] => pure ⟨major, minor, 0, [], []⟩
    | [major, minor, patch] => pure ⟨major, minor, patch, [], []⟩
    | _ => none

/-- Reads a version that may lack its last numbers. -/
def ofText? (text : String) : Option Version := read? text.toList

def labelText (labels : List (List Char)) : String := String.ofList (join ['.'] labels)

def text (v : Version) : String :=
  toString v.major ++ "." ++ toString v.minor ++ "." ++ toString v.patch ++
    (if v.pre.isEmpty then "" else "-" ++ labelText v.pre) ++
    (if v.build.isEmpty then "" else "+" ++ labelText v.build)

/-- Compares texts character by character; a text comes after its beginnings. -/
def compareChars : List Char → List Char → Ordering :=
  List.compareLex fun c d => compare c.toNat d.toNat

/-- Compares labels: numbers by value, then by the number of zeros in front; a number comes before a
word; words by their characters. -/
def compareLabels (a b : List Char) : Ordering :=
  let significant (label : List Char) : List Char := label.dropWhile (· == '0')
  match isNumeric a, isNumeric b with
  | true, false => .lt
  | false, true => .gt
  | false, false => compareChars a b
  | true, true =>
    (compare (significant a).length (significant b).length).then
      ((compareChars (significant a) (significant b)).then (compare a.length b.length))

/-- Compares pre-releases: a release comes after all of them. -/
def comparePre (a b : List (List Char)) : Ordering :=
  match a.isEmpty, b.isEmpty with
  | true, true => .eq
  | true, false => .gt
  | false, true => .lt
  | false, false => List.compareLex compareLabels a b

protected def compare (v w : Version) : Ordering :=
  (compare v.major w.major).then ((compare v.minor w.minor).then ((compare v.patch w.patch).then
    ((comparePre v.pre w.pre).then (List.compareLex compareLabels v.build w.build))))

/-- One version comes after another. -/
def newerThan (v w : Version) : Bool := v.compare w == .gt

/-- The newer of two versions; the first where none is. -/
def newest (v w : Version) : Version := if w.newerThan v then w else v

/-- A possibly partial version selects a version. A complete one selects no pre-release. -/
def selectedBy (requested : String) (v : Version) : Bool :=
  let parts := splitAtChar '.' (bare requested.toList)
  parts.length ≤ 3 &&
    (parts.zip [v.major, v.minor, v.patch]).all (fun (part, n) => unsigned? 64 part == some n) &&
    (parts.length < 3 || v.pre.isEmpty)

def volatile : String := "volatile"

/-- The newest published version that a request selects, as it was published; of equal ones the last. -/
def resolve? (requested : String) (published : List String) : Option String :=
  let all := requested.isEmpty || requested == volatile
  let selected := published.filterMap fun text => (ofText? text).bind fun v =>
    if all || v.selectedBy requested then some (text, v) else none
  (selected.foldl (fun best entry => match best with
    | none => some entry
    | some found => if found.2.newerThan entry.2 then some found else some entry) none).map (·.1)

/-- One version text is newer than another; both are versions. -/
def isNewer (current candidate : String) : Bool :=
  match ofText? current, ofText? candidate with
  | some v, some w => w.newerThan v
  | _, _ => false

end Version

/-- The newest versions: of all, of those with the same major number, of those with the same major and
minor number. -/
structure NewestVersions where
  latest : String
  latestMinor : String
  latestPatch : String
  deriving DecidableEq, Repr, Inhabited

namespace NewestVersions

/-- The newest versions around a published one; the version itself counts. -/
def of? (current : String) (published : List String) : Option NewestVersions := do
  let v ← Version.ofText? current
  let all := published.filterMap Version.ofText?
  let sameMajor := all.filter (·.major == v.major)
  let sameMinor := sameMajor.filter (·.minor == v.minor)
  let newestOf (versions : List Version) : String := (versions.foldl Version.newest v).text
  pure ⟨newestOf all, newestOf sameMajor, newestOf sameMinor⟩

end NewestVersions

end PipelineLint
