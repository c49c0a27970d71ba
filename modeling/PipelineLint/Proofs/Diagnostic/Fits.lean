import PipelineLint.Diagnostic.Basic
import PipelineLint.Proofs.Text.Position
import Mathlib.Data.List.Basic
import Mathlib.Order.Nat

/-! # Ranges that fit a text

A range fits a text if both of its lines are lines of the text and it does not end before it starts. Its columns may lie
beyond the ends of the lines. A finding fits if all of its ranges do, those of its labels and edits among them.
-/

namespace PipelineLint

namespace Text

/-- The number of the last line. After a line feed at the end of a text there is one more line, which is empty. -/
def lastLine (cs : List Char) : Nat := cs.count '\n'

theorem lastLine_append (xs ys : List Char) : lastLine (xs ++ ys) = lastLine xs + lastLine ys := List.count_append

theorem line_advance (p : Position) (cs : List Char) : (advance p cs).line = p.line + lastLine cs := by
  induction cs generalizing p with
  | nil => rfl
  | cons c cs ih =>
    rw [advance, ih, lastLine, lastLine, List.count_cons]
    by_cases hc : c = '\n'
    · rw [if_pos hc, if_pos (by simpa using hc), Nat.add_assoc, Nat.add_comm 1]
    · rw [if_neg hc, if_neg (by simpa using hc), Nat.add_zero]

/-- A text leads from a position as from the start, with the columns of the position on its first line. -/
theorem advance_eq (p : Position) (cs : List Char) : advance p cs =
    ⟨p.line + lastLine cs, (if lastLine cs = 0 then p.column else 0) + (advance ⟨0, 0⟩ cs).column⟩ := by
  obtain ⟨lines, tail, rfl, hlines, htail⟩ := exists_wholeLines cs
  have hcount : lastLine (lines ++ tail) = lines.count '\n' := by
    rw [lastLine, List.count_append, List.count_eq_zero_of_not_mem htail, Nat.add_zero]
  rw [hcount, advance_append, advance_append, advance_of_notMem htail, hlines.advance_eq, advance_of_notMem htail]
  by_cases hne : lines = []
  · subst hne
    simp [advance]
  · rw [advance_wholeLines hlines hne, if_neg (Nat.ne_of_gt (hlines.count_pos hne))]
    simp

/-- A text leads as far as its first part would on one line, or further. -/
theorem column_le_advance (p : Position) (xs ys : List Char) :
    (⟨p.line, p.column + byteLength xs⟩ : Position) ≤ advance p (xs ++ ys) := by
  have hline : (⟨p.line, p.column + byteLength xs⟩ : Position) ≤ advance p xs := by
    induction xs generalizing p with
    | nil => exact p.le_refl
    | cons c xs ih =>
      rw [advance, byteLength_cons, ← Nat.add_assoc]
      split
      · refine Position.le_trans (Position.le_def.mpr (.inl ?_)) (le_advance _ xs)
        exact Nat.lt_succ_self _
      · exact ih ⟨p.line, p.column + c.utf8Size⟩
  rw [advance_append]
  exact Position.le_trans hline (le_advance _ ys)

end Text

private theorem Position.line_right (p : Position) (delta : Nat) : (p.right delta).line = p.line := by
  rw [right]

private theorem Position.le_right {p q : Position} (h : p ≤ q) (hcolumn : p.column ≤ maxCoordinate) (delta : Nat) :
    p ≤ q.right delta := by
  simp only [right, le_def] at h ⊢
  rcases h with hline | ⟨hline, hle⟩
  · exact .inl hline
  · exact .inr ⟨hline, le_min (hle.trans (Nat.le_add_right _ _)) hcolumn⟩

namespace Range

variable {last last' line column column' : Nat} {p : Position} {r : Range}

structure Fits (last : Nat) (r : Range) : Prop where
  start : r.start.line ≤ last
  stop : r.stop.line ≤ last
  /-- No column counts further than the greatest one. -/
  forward : r.start.column ≤ maxCoordinate → r.start ≤ r.stop

theorem Fits.mono (h : r.Fits last) (hle : last ≤ last') : r.Fits last' :=
  ⟨h.start.trans hle, h.stop.trans hle, h.forward⟩

theorem fits_ofCoordinates (hline : line ≤ last) (hcolumn : column ≤ column') :
    (ofCoordinates line column line column').Fits last where
  start := hline
  stop := hline
  forward _ := .inr ⟨rfl, hcolumn⟩

theorem fits_point (hline : p.line ≤ last) : Fits last ⟨p, p⟩ := ⟨hline, hline, fun _ => p.le_refl⟩

theorem fits_nowhere : Fits last {} := fits_point (Nat.zero_le last)

theorem Fits.toLineEnd (h : r.Fits last) : r.toLineEnd.Fits last := by
  rw [Range.toLineEnd, widen]
  exact ⟨h.start, by rw [Position.line_right]; exact h.stop, fun hcolumn => Position.le_right (h.forward hcolumn) hcolumn _⟩

end Range

def Located.Fits (last : Nat) (l : Located) : Prop := l.range.Fits last

namespace Diagnostic

variable {last last' : Nat} {d : Diagnostic} {r : Range}

/-- The finding fits a text whose last line has a number. -/
structure Fits (last : Nat) (d : Diagnostic) : Prop where
  range : d.range.Fits last
  labels : ∀ l ∈ d.labels, l.range.Fits last
  edits : ∀ a ∈ d.actions, ∀ e ∈ a.edits, e.range.Fits last

theorem Fits.mono (h : d.Fits last) (hle : last ≤ last') : d.Fits last' where
  range := h.range.mono hle
  labels l hl := (h.labels l hl).mono hle
  edits a ha e he := (h.edits a ha e he).mono hle

/-- A finding that has only its own place. -/
@[simp] theorem fits_bare {severity : Severity} {code : Option Code} {message : String} {help : Option String}
    {tags : List Tag}
    (hr : r.Fits last) : Fits last { severity, code, message, range := r, help, tags } where
  range := hr
  labels := List.forall_mem_nil _
  edits := List.forall_mem_nil _

@[simp] theorem fits_error {code : Code} {message : String} (hr : r.Fits last) : (error code r message).Fits last :=
  fits_bare hr

@[simp] theorem fits_warning {code : Code} {message : String} (hr : r.Fits last) : (warning code r message).Fits last :=
  fits_bare hr

@[simp] theorem fits_hint {code : Code} {message : String} (hr : r.Fits last) :
    (hint code r message).Fits last := fits_bare hr

namespace Fits

variable (h : d.Fits last)
include h

@[simp] theorem withTag (tag : Tag) : (d.withTag tag).Fits last := by
  rw [Diagnostic.withTag]
  split
  · exact h
  · exact { h with }

@[simp] theorem withHelp (help : String) : (d.withHelp help).Fits last := { h with }

theorem withExplanation (hr : r.Fits last) (message : String) : (d.withExplanation r message).Fits last :=
  { h with labels := List.forall_mem_append.mpr ⟨h.labels, List.forall_mem_singleton.mpr hr⟩ }

theorem withLabel (hr : r.Fits last) (message : String) : (d.withLabel r message).Fits last :=
  { h with
    range := hr
    labels := List.forall_mem_append.mpr ⟨h.labels, List.forall_mem_singleton.mpr hr⟩ }

theorem withAction {a : Action} (ha : ∀ e ∈ a.edits, e.range.Fits last) : (d.withAction a).Fits last :=
  { h with edits := List.forall_mem_append.mpr ⟨h.edits, List.forall_mem_singleton.mpr ha⟩ }

/-- A quick fix that replaces one part of the text. -/
theorem withReplacement (hr : r.Fits last) (title newText : String) :
    (d.withAction (.replace title r newText)).Fits last := h.withAction (List.forall_mem_singleton.mpr hr)

end Fits

end Diagnostic

end PipelineLint
