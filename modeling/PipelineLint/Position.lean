import PipelineLint.Text.Measure

/-! # Positions and ranges

A position is a line and a byte column, both counted from zero; positions are ordered by line, then by
column. A range is a pair of positions. `positionAt` and `offsetOf?` lead from byte offsets to
positions and back.
-/

namespace PipelineLint

/-- The greatest line and the greatest column that a position can have. -/
def maxCoordinate : Nat := Nat.pow 2 32 - 1

/-- Columns added to reach past the end of any line. -/
def lineEndColumns : Nat := 999

/-- A place in a text. -/
structure Position where
  line : Nat := 0
  column : Nat := 0
  deriving DecidableEq, Repr, Inhabited

namespace Position

protected def le (p q : Position) : Prop :=
  p.line < q.line ∨ p.line = q.line ∧ p.column ≤ q.column

instance : LE Position := ⟨Position.le⟩

instance : LT Position := ⟨fun p q => p ≤ q ∧ ¬ q ≤ p⟩

instance (p q : Position) : Decidable (p ≤ q) :=
  inferInstanceAs (Decidable (p.line < q.line ∨ p.line = q.line ∧ p.column ≤ q.column))

instance (p q : Position) : Decidable (p < q) :=
  inferInstanceAs (Decidable (p ≤ q ∧ ¬ q ≤ p))

theorem le_def {p q : Position} :
    p ≤ q ↔ p.line < q.line ∨ p.line = q.line ∧ p.column ≤ q.column := Iff.rfl

theorem lt_def {p q : Position} :
    p < q ↔ p.line < q.line ∨ p.line = q.line ∧ p.column < q.column := by
  change (_ ∨ _) ∧ ¬ (_ ∨ _) ↔ _
  omega

theorem le_refl (p : Position) : p ≤ p := .inr ⟨rfl, Nat.le_refl _⟩

theorem le_trans {p q r : Position} (h : p ≤ q) (h' : q ≤ r) : p ≤ r := by
  rw [le_def] at *; omega

theorem le_antisymm {p q : Position} (h : p ≤ q) (h' : q ≤ p) : p = q := by
  rw [le_def] at *
  cases p; cases q; simp_all; omega

protected def compare (p q : Position) : Ordering :=
  (Ord.compare p.line q.line).then (Ord.compare p.column q.column)

/-- The position `delta` columns to the right, stopping at the last column there is. -/
def right (p : Position) (delta : Nat) : Position :=
  ⟨p.line, min (p.column + delta) maxCoordinate⟩

end Position

/-- The part of a text between two positions. The range from the origin to the origin also stands for
"no place". -/
structure Range where
  start : Position := ⟨0, 0⟩
  stop : Position := ⟨0, 0⟩
  deriving DecidableEq, Repr, Inhabited

namespace Range

def ofCoordinates (line column endLine endColumn : Nat) : Range :=
  ⟨⟨line, column⟩, ⟨endLine, endColumn⟩⟩

def nowhere : Range := {}

def isNowhere (r : Range) : Bool :=
  r = nowhere

/-- The position lies in the range, both ends included: a cursor right after a thing is still at it. -/
def contains (r : Range) (p : Position) : Bool :=
  r.start ≤ p && p ≤ r.stop

def containsRange (r other : Range) : Bool :=
  r.contains other.start && r.contains other.stop

def isSingleLine (r : Range) : Bool :=
  r.start.line = r.stop.line

/-- The range with its end moved to the right. -/
def widen (r : Range) (delta : Nat) : Range :=
  ⟨r.start, r.stop.right delta⟩

def toLineEnd (r : Range) : Range :=
  r.widen lineEndColumns

/-- Ranges are ordered by start, then by end. -/
protected def compare (r other : Range) : Ordering :=
  (r.start.compare other.start).then (r.stop.compare other.stop)

end Range

structure Located where
  text : String := ""
  range : Range := {}
  deriving DecidableEq, Repr, Inhabited

namespace Text

def advance (p : Position) : List Char → Position
  | [] => p
  | c :: cs => advance (if c = '\n' then ⟨p.line + 1, 0⟩ else ⟨p.line, p.column + c.utf8Size⟩) cs

/-- The position of a byte offset; an offset past the end is that of the end. An offset inside a
character counts the bytes of that character before it. -/
def positionAt (offset : Nat) (cs : List Char) : Position :=
  go offset ⟨0, 0⟩ cs
where
  go : Nat → Position → List Char → Position
    | _, p, [] => p
    | n, p, c :: cs =>
      if n < c.utf8Size then ⟨p.line, p.column + n⟩
      else go (n - c.utf8Size) (if c = '\n' then ⟨p.line + 1, 0⟩ else ⟨p.line, p.column + c.utf8Size⟩) cs

def lineStart? : Nat → List Char → Option Nat
  | 0, _ => some 0
  | _ + 1, [] => none
  | n + 1, c :: cs =>
    if c = '\n' then (lineStart? n cs).map (· + 1)
    else (lineStart? (n + 1) cs).map (· + c.utf8Size)

/-- The byte offset of a position, if its line exists. A column past the end of the line is that of
the end of the line. -/
def offsetOf? (p : Position) (cs : List Char) : Option Nat := do
  let start ← lineStart? p.line cs
  let line := (dropBytes start cs).takeWhile (· ≠ '\n')
  pure (start + min p.column (byteLength line))

end Text

end PipelineLint
