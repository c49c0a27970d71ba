import PipelineLint.Yaml.ScalarText
import PipelineLint.Proofs.Related
import PipelineLint.Proofs.Text.Blank
import PipelineLint.Proofs.Text.Measure
import PipelineLint.Proofs.Text.Split

/-! # What a block scalar keeps

Of a line of a block scalar only blank characters are taken, as long as the line can be cut at the common indentation. A
line that cannot is lost as a whole: its indentation is longer, but the common one ends inside of a character. So the
content of a block scalar is kept just if all its lines can be cut (`block_solid`), as they can where the lines are
indented by spaces and tabs (`cuttable_of_narrow`).
-/

namespace PipelineLint

namespace Text

variable {cs xs ys first rest line : List Char} {n : Nat}

def solid (cs : List Char) : List Char := cs.filter (!isBlank ·)

@[simp] theorem solid_nil : solid [] = [] := rfl

@[simp] theorem solid_append (xs ys : List Char) : solid (xs ++ ys) = solid xs ++ solid ys :=
  List.filter_append xs ys

theorem solid_cons_of_isBlank {c : Char} (hc : isBlank c = true) (cs : List Char) : solid (c :: cs) = solid cs := by
  simp [solid, hc]

theorem solid_eq_nil_iff : solid cs = [] ↔ Blanks cs := by
  simp [solid, Blanks]

theorem Blanks.solid_eq (h : Blanks cs) : solid cs = [] := solid_eq_nil_iff.mpr h

private theorem solid_trim (cs : List Char) : solid (trim cs) = solid cs := by
  obtain ⟨before, after, hbefore, hafter, hcs⟩ := exists_append_trim cs
  conv_rhs => rw [hcs]
  rw [solid_append, solid_append, hbefore.solid_eq, hafter.solid_eq, List.nil_append, List.append_nil]

private theorem solid_join {separator : List Char} (hseparator : Blanks separator) (parts : List (List Char)) :
    solid (join separator parts) = parts.flatMap solid := by
  induction parts with
  | nil => rfl
  | cons part parts ih =>
    cases parts with
    | nil => simp [join, List.intercalate]
    | cons next parts =>
      rw [join, List.intercalate_cons_cons, solid_append, solid_append, hseparator.solid_eq, List.append_nil,
        List.flatMap_cons, ← ih, join]

theorem solid_dropReturn (line : List Char) : solid (dropReturn line) = solid line := by
  obtain ⟨tail, hline, htail⟩ := exists_dropReturn_append line
  have hblanks : Blanks tail := fun c hc => htail c hc ▸ by decide
  conv_rhs => rw [← hline, solid_append, hblanks.solid_eq, List.append_nil]

/-- The lines of a text have what the text has. -/
theorem flatMap_solid_lines (cs : List Char) : (lines cs).flatMap solid = solid cs := by
  induction cs using lines_induction with
  | last line h =>
    rw [lines_of_notMem h]
    split
    · next hnil => rw [hnil]; rfl
    · exact List.flatMap_singleton solid line
  | feed first rest h ih =>
    rw [lines_feed h, List.flatMap_cons, ih, solid_dropReturn, solid_append, solid_cons_of_isBlank (by decide)]

private theorem slice_of_isBoundary (h : isBoundary n line = true) :
    slice line n (byteLength line) = dropBytes n line := by
  have hsplit := takeBytes_append_dropBytes n line
  have hslice := slice?_append (takeBytes n line) (dropBytes n line) []
  have hlength := congrArg byteLength hsplit
  rw [byteLength_append] at hlength
  rw [List.append_nil, hsplit, hlength, byteLength_takeBytes h] at hslice
  rw [slice, hslice, Option.getD_some]

private theorem slice_of_not_isBoundary (h : isBoundary n line = false) : slice line n (byteLength line) = [] := by
  simp [slice, slice?, h]

/-- Text of characters of one byte can be cut anywhere. -/
theorem isBoundary_of_narrow (hnarrow : ∀ c ∈ cs, c.utf8Size = 1) (h : n ≤ byteLength cs) : isBoundary n cs = true := by
  induction cs generalizing n with
  | nil => simpa [isBoundary] using h
  | cons c cs ih =>
    obtain ⟨hc, hcs⟩ := List.forall_mem_cons.mp hnarrow
    rw [byteLength_cons, hc] at h
    have hrest := ih hcs (n := n - 1) (by omega)
    by_cases hn : n = 0
    · simp [isBoundary, hn]
    · simp [isBoundary, hc, hrest, Nat.one_le_iff_ne_zero, hn]

end Text

namespace Yaml.ScalarText

open Text

variable {body : List (List Char)} {line header cs : List Char} {n : Nat}

/-- What follows the first line of a text. -/
def afterHeader (raw : List Char) : List Char := (raw.dropWhile (· != '\n')).tail

theorem afterHeader_feed (h : '\n' ∉ header) (rest : List Char) : afterHeader (header ++ '\n' :: rest) = rest := by
  have hrun : ∀ c ∈ header, (c != '\n') = true := fun c hc => bne_iff_ne.mpr (ne_of_mem_of_not_mem hc h)
  rw [afterHeader, dropWhile_run hrun (by simp), List.tail_cons]

private theorem afterHeader_of_notMem (h : '\n' ∉ header) : afterHeader header = [] := by
  rw [afterHeader, List.dropWhile_eq_nil_iff.mpr, List.tail_nil]
  exact fun c hc => bne_iff_ne.mpr (ne_of_mem_of_not_mem hc h)

/-- A text is a first line alone, or a first line and what follows its line feed. -/
theorem header_cases (raw : List Char) : '\n' ∉ raw ∧ afterHeader raw = [] ∨
    ∃ header, '\n' ∉ header ∧ raw = header ++ '\n' :: afterHeader raw := by
  cases hcut : cut? ['\n'] raw with
  | none =>
    have hraw := notMem_of_cut?_eq_none hcut
    exact .inl ⟨hraw, afterHeader_of_notMem hraw⟩
  | some parts =>
    obtain ⟨hraw, hheader⟩ := cut?_singleton_eq_some_iff.mp hcut
    refine .inr ⟨parts.1, hheader, ?_⟩
    rw [hraw, afterHeader_feed hheader]

theorem tail_lines (raw : List Char) : (lines raw).tail = lines (afterHeader raw) := by
  obtain ⟨hraw, hafter⟩ | ⟨header, hheader, hraw⟩ := header_cases raw
  · rw [hafter, lines_of_notMem hraw]
    split <;> rfl
  · rw [hraw, lines_feed hheader, afterHeader_feed hheader, List.tail_cons]

theorem allBlank_iff : allBlank line = true ↔ Blanks line := List.all_eq_true

/-- The common indentation is no longer than that of a line. -/
theorem commonIndent_le (hline : line ∈ body) (hsolid : ¬Blanks line) : commonIndent body ≤ indentOf line := by
  have hmem : indentOf line ∈ (body.filter (!allBlank ·)).map indentOf := by
    refine List.mem_map_of_mem (List.mem_filter.mpr ⟨hline, ?_⟩)
    rw [Bool.not_eq_true', ← Bool.not_eq_true, allBlank_iff]
    exact hsolid
  rw [commonIndent]
  cases hmin : ((body.filter (!allBlank ·)).map indentOf).min? with
  | none =>
    rw [List.min?_eq_none_iff] at hmin
    rw [hmin] at hmem
    cases hmem
  | some least => exact (List.min?_eq_some_iff.mp hmin).2 _ hmem

/-- What is taken from a line up to its indentation is blank. -/
theorem blanks_takeBytes (hle : n ≤ indentOf line) : Blanks (takeBytes n line) := by
  have hsplit := List.takeWhile_append_dropWhile (p := isBlank) (l := line)
  have htake : takeBytes n line = takeBytes n (line.takeWhile isBlank) := by
    conv_lhs => rw [← hsplit]
    exact takeBytes_append_of_le hle
  intro c hc
  rw [htake] at hc
  refine blanks_takeWhile line c ?_
  rw [← takeBytes_append_dropBytes n (line.takeWhile isBlank)]
  exact List.mem_append_left _ hc

theorem dedent_eq (n : Nat) (line : List Char) :
    dedent n line = if isBoundary n line then dropBytes n line else [] := by
  rw [dedent]
  cases h : isBoundary n line with
  | false => exact slice_of_not_isBoundary h
  | true => exact slice_of_isBoundary h

/-- The line loses `n` bytes of its indentation, or has no content. -/
def CutAt (n : Nat) (line : List Char) : Prop :=
  ¬Blanks line → isBoundary n line = true ∧ n ≤ indentOf line

theorem CutAt.exists_cut (h : CutAt n line) (hsolid : ¬Blanks line) :
    ∃ cut, line = cut ++ dedent n line ∧ Blanks cut ∧ byteLength cut = n := by
  obtain ⟨hboundary, hle⟩ := h hsolid
  refine ⟨takeBytes n line, ?_, blanks_takeBytes hle, byteLength_takeBytes hboundary⟩
  rw [dedent_eq, if_pos hboundary, takeBytes_append_dropBytes]

theorem mem_of_mem_dedent {c : Char} (hc : c ∈ dedent n line) : c ∈ line := by
  rw [dedent_eq] at hc
  split at hc
  · rw [← takeBytes_append_dropBytes n line]
    exact List.mem_append_right _ hc
  · cases hc

theorem not_blanks_of_mem_dedent {c : Char} (hc : c ∈ dedent n line) (hsolid : isBlank c = false) : ¬Blanks line := by
  intro hblanks
  rw [hblanks c (mem_of_mem_dedent hc)] at hsolid
  cases hsolid

theorem CutAt.solid_dedent (h : CutAt n line) : solid (dedent n line) = solid line := by
  by_cases hsolid : Blanks line
  · have hrest : Blanks (dedent n line) := fun c hc => hsolid c (mem_of_mem_dedent hc)
    rw [hrest.solid_eq, hsolid.solid_eq]
  · obtain ⟨cut, hline, hcut, -⟩ := h.exists_cut hsolid
    conv_rhs => rw [hline, solid_append, hcut.solid_eq, List.nil_append]

/-- A line that can be cut loses blank characters only; one that cannot is lost. -/
theorem solid_dedent (hline : line ∈ body) :
    solid (dedent (commonIndent body) line) = if isBoundary (commonIndent body) line then solid line else [] := by
  split
  · next hboundary =>
    exact CutAt.solid_dedent fun hsolid => ⟨hboundary, commonIndent_le hline hsolid⟩
  · next hboundary => rw [dedent_eq, if_neg hboundary, solid_nil]

/-- All lines with content can be cut at the common indentation. -/
def Cuttable (body : List (List Char)) : Prop :=
  ∀ line ∈ body, ¬Blanks line → isBoundary (commonIndent body) line = true

-- Named, since the search can also find the instance that goes through every character there is.
instance (cs : List Char) : Decidable (Blanks cs) := List.decidableBAll (fun c => isBlank c = true) cs

instance (body : List (List Char)) : Decidable (Cuttable body) :=
  inferInstanceAs (Decidable (∀ line ∈ body, ¬Blanks line → isBoundary (commonIndent body) line = true))

/-- Lines that are indented by characters of one byte, as by spaces and tabs, can be cut. -/
theorem cuttable_of_narrow (h : ∀ line ∈ body, ∀ c ∈ line.takeWhile isBlank, c.utf8Size = 1) : Cuttable body := by
  intro line hline hsolid
  have hle := commonIndent_le hline hsolid
  rw [← List.takeWhile_append_dropWhile (p := isBlank) (l := line), isBoundary_append_of_le hle]
  exact isBoundary_of_narrow (h line hline) hle

/-- Of the lines after the first one a block scalar has the content of those that can be cut at the common indentation,
in their order, and nothing else. So all content is kept just if all lines with content can be cut. -/
theorem block_solid (raw : List Char) :
    solid (block raw) = (lines (afterHeader raw)).flatMap (fun line =>
      if isBoundary (commonIndent (lines (afterHeader raw))) line then solid line else []) ∧
    (solid (block raw) = solid (afterHeader raw) ↔ Cuttable (lines (afterHeader raw))) := by
  have hkept : solid (block raw) = (lines (afterHeader raw)).flatMap fun line =>
      if isBoundary (commonIndent (lines (afterHeader raw))) line then solid line else [] := by
    have hseparator : Blanks (if (trimStart ((lines raw).head?.getD [])).head? = some '>' then [' '] else ['\n']) := by
      split <;> simp [Blanks, isBlank]
    rw [block, solid_trim, solid_join hseparator, List.flatMap_map, tail_lines]
    exact List.flatMap_congr fun line hline => solid_dedent hline
  refine ⟨hkept, ?_⟩
  rw [hkept, ← flatMap_solid_lines (afterHeader raw), flatMap_eq_flatMap_iff fun line _ => ?_]
  · refine forall₂_congr fun line _ => ?_
    rw [ite_eq_left_iff, Bool.not_eq_true, eq_comm (a := []), solid_eq_nil_iff]
    cases isBoundary (commonIndent (lines (afterHeader raw))) line <;> simp
  · split
    · exact List.Sublist.refl _
    · exact List.nil_sublist _

/-- A no-break space has two bytes, so three spaces reach into the second character of the first line. -/
theorem block_loses_line :
    ¬ solid (block "|\n  \u00a0x\n   y\n".toList) = solid (afterHeader "|\n  \u00a0x\n   y\n".toList) := by
  decide

end Yaml.ScalarText

end PipelineLint
