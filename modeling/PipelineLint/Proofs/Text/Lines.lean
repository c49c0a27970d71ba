import PipelineLint.Proofs.Text.Position
import PipelineLint.Proofs.Text.Split

/-! # Lines, positions and offsets

The line feeds of a text cut it into lines. On each line a position tells the same as a byte offset: its line is the
number of line feeds before the line, its column the number of bytes since then (`IsLine.positionAt_eq`,
`IsLine.offsetOf?_eq`). As every offset lies on a line and every line number up to the number of line feeds is that of
a line, offsets and positions are inverse to each other (`positions_inverse_to_offsets`).

The line around an offset starts after the last line feed before the offset and ends at the first line feed from the
offset on. Both ends lie between two characters, whatever offset of the line is taken (`IsLine.lineStartBefore_eq`,
`IsLine.lineEndAfter_eq`).
-/

namespace PipelineLint.Text

section

variable {before line after cs : List Char} {c : Char} {i k n : Nat} {p : Position}

/-- A line of a text, between the lines before it and the line feed or the end of the text after it. -/
structure IsLine (before line after : List Char) : Prop where
  whole : WholeLines before
  unbroken : '\n' ∉ line
  ended : ∀ c ∈ after.head?, c = '\n'

namespace IsLine

/-- A character may stand before a line that is not the first one, a line feed before any. -/
theorem cons (h : IsLine before line after) (hc : before = [] → c = '\n') : IsLine (c :: before) line after := by
  refine ⟨?_, h.unbroken, h.ended⟩
  intro d hd
  by_cases hbefore : before = []
  · subst hbefore
    obtain rfl : c = d := Option.some.inj hd
    exact hc rfl
  · rw [List.getLast?_cons_of_ne_nil hbefore] at hd
    exact h.whole d hd

/-- The first line may start with any other character. -/
theorem cons_first (h : IsLine [] line after) (hc : c ≠ '\n') : IsLine [] (c :: line) after :=
  ⟨h.whole, by simpa [hc.symm] using h.unbroken, h.ended⟩

/-- The empty line at the end of the text, or at a line feed. -/
theorem nil_nil (h : ∀ c ∈ after.head?, c = '\n') : IsLine [] [] after := ⟨nofun, List.not_mem_nil, h⟩

theorem nil : IsLine [] [] [] := nil_nil (by simp)

theorem takeWhile_eq (h : IsLine before line after) : (line ++ after).takeWhile (· ≠ '\n') = line := by
  have hline : ∀ c ∈ line, decide (c ≠ '\n') = true := by
    intro c hc
    rw [decide_eq_true_eq]
    rintro rfl
    exact h.unbroken hc
  rw [List.takeWhile_append_of_pos hline]
  cases after with
  | nil => simp
  | cons c after =>
    obtain rfl := h.ended c rfl
    simp

end IsLine

/-- Each offset lies on a line. -/
theorem exists_isLine_of_le (h : i ≤ byteLength cs) : ∃ before line after, cs = before ++ (line ++ after) ∧
    IsLine before line after ∧ byteLength before ≤ i ∧ i ≤ byteLength before + byteLength line := by
  induction cs generalizing i with
  | nil => exact ⟨[], [], [], rfl, .nil, Nat.zero_le _, by simpa using h⟩
  | cons c cs ih =>
    rw [byteLength_cons] at h
    by_cases hc : c = '\n'
    · subst hc
      by_cases hi : i = 0
      · subst hi
        exact ⟨[], [], '\n' :: cs, rfl, .nil_nil (by rintro _ ⟨⟩; rfl), Nat.zero_le _, Nat.zero_le _⟩
      · have hsize : Char.utf8Size '\n' = 1 := rfl
        obtain ⟨before, line, after, rfl, hline, hle, hge⟩ := ih (i := i - 1) (by omega)
        refine ⟨'\n' :: before, line, after, rfl, hline.cons fun _ => rfl, ?_, ?_⟩ <;>
          rw [byteLength_cons] <;> omega
    · obtain ⟨before, line, after, rfl, hline, hle, hge⟩ := ih (i := i - c.utf8Size) (by omega)
      by_cases hbefore : before = []
      · subst hbefore
        refine ⟨[], c :: line, after, rfl, hline.cons_first hc, Nat.zero_le _, ?_⟩
        rw [byteLength_nil] at hge ⊢
        rw [byteLength_cons]
        omega
      · have hpos := byteLength_pos hbefore
        refine ⟨c :: before, line, after, rfl, hline.cons fun h => absurd h hbefore, ?_, ?_⟩ <;>
          rw [byteLength_cons] <;> omega

/-- The parts between line feeds are the lines, in their order. -/
theorem exists_isLine_of_getElem? (h : (splitAtChar '\n' cs)[n]? = some line) : ∃ before after,
    cs = before ++ (line ++ after) ∧ IsLine before line after ∧ before.count '\n' = n := by
  induction cs generalizing n line with
  | nil =>
    obtain ⟨rfl, rfl⟩ : n = 0 ∧ [] = line := by
      cases n with
      | zero => simpa [splitAtChar, splitOn] using h
      | succ n => simp [splitAtChar, splitOn] at h
    exact ⟨[], [], rfl, .nil, rfl⟩
  | cons c cs ih =>
    rw [splitAtChar, splitOn] at h
    by_cases hc : c = '\n'
    · subst hc
      rw [if_pos (by rfl)] at h
      cases n with
      | zero =>
        obtain rfl : [] = line := by simpa using h
        exact ⟨[], '\n' :: cs, rfl, .nil_nil (by rintro _ ⟨⟩; rfl), rfl⟩
      | succ n =>
        obtain ⟨before, after, rfl, hline, rfl⟩ := ih h
        exact ⟨'\n' :: before, after, rfl, hline.cons fun _ => rfl, List.count_cons_self⟩
    · rw [if_neg (by simpa using hc)] at h
      cases hparts : splitOn (· == '\n') cs with
      | nil =>
        rw [splitOn_eq_splitOnP] at hparts
        exact absurd hparts (List.splitOnP_ne_nil _ _)
      | cons part parts =>
        rw [hparts] at h
        cases n with
        | zero =>
          obtain rfl : c :: part = line := by simpa using h
          have hfirst : (splitAtChar '\n' cs)[0]? = some part := by rw [splitAtChar, hparts]; rfl
          obtain ⟨before, after, rfl, hline, hcount⟩ := ih hfirst
          obtain rfl : before = [] :=
            Decidable.byContradiction fun hne => Nat.ne_of_gt (hline.whole.count_pos hne) hcount
          exact ⟨[], after, rfl, hline.cons_first hc, rfl⟩
        | succ n =>
          have hlater : (splitAtChar '\n' cs)[n + 1]? = some line := by rw [splitAtChar, hparts]; exact h
          obtain ⟨before, after, rfl, hline, hcount⟩ := ih hlater
          refine ⟨c :: before, after, rfl, hline.cons ?_, ?_⟩
          · rintro rfl
            cases hcount
          · rw [List.count_cons_of_ne (by simpa using hc), hcount]

theorem length_splitAtChar (cs : List Char) : (splitAtChar '\n' cs).length = cs.count '\n' + 1 := by
  induction cs with
  | nil => rfl
  | cons c cs ih =>
    rw [splitAtChar] at ih ⊢
    rw [splitOn]
    by_cases hc : c = '\n'
    · subst hc
      rw [if_pos (by rfl), List.length_cons, ih, List.count_cons_self]
    · rw [if_neg (by simpa using hc), List.count_cons_of_ne (by simpa using hc), ← ih]
      cases hparts : splitOn (· == '\n') cs with
      | nil => simp [hparts] at ih
      | cons part parts => rfl

/-- The bytes of a character have the columns from that of the character on. -/
theorem positionAt_within {c : Char} {j : Nat} (hj : j < c.utf8Size) (before after : List Char) :
    positionAt (byteLength before + j) (before ++ c :: after) =
      ⟨(advance ⟨0, 0⟩ before).line, (advance ⟨0, 0⟩ before).column + j⟩ := by
  rw [positionAt, go_byteLength_add, positionAt.go, if_pos hj]

/-- On a line the column counts the bytes, those of a part of a character too. -/
theorem go_unbroken (h : '\n' ∉ line) (hk : k ≤ byteLength line) (p : Position) (after : List Char) :
    positionAt.go k p (line ++ after) = ⟨p.line, p.column + k⟩ := by
  induction line generalizing p k with
  | nil =>
    obtain rfl : k = 0 := by simpa using hk
    cases after with
    | nil => rfl
    | cons c after => rw [List.nil_append, positionAt.go, if_pos c.utf8Size_pos]
  | cons c line ih =>
    obtain ⟨hc, hline⟩ := List.ne_and_not_mem_of_not_mem_cons h
    rw [byteLength_cons] at hk
    rw [List.cons_append, positionAt.go]
    by_cases hsize : k < c.utf8Size
    · rw [if_pos hsize]
    · rw [if_neg hsize, if_neg hc.symm, ih hline (by omega)]
      congr 1
      dsimp only
      omega

namespace IsLine

theorem positionAt_eq (h : IsLine before line after) (hk : k ≤ byteLength line) :
    positionAt (byteLength before + k) (before ++ (line ++ after)) = ⟨before.count '\n', k⟩ := by
  rw [positionAt, go_byteLength_add, h.whole.advance_eq, go_unbroken h.unbroken hk, Nat.zero_add]

theorem offsetOf?_eq (h : IsLine before line after) (column : Nat) :
    offsetOf? ⟨before.count '\n', column⟩ (before ++ (line ++ after)) =
      some (byteLength before + min column (byteLength line)) := by
  simp only [offsetOf?, lineStart?_wholeLines h.whole, Option.bind_eq_bind, Option.bind_some, dropBytes_byteLength,
    h.takeWhile_eq, Option.pure_def]

/-- What stands before a position on the line is as long as the text up to it. -/
theorem byteLength_eq {start rest : List Char} (h : IsLine before line after) (hk : k ≤ byteLength line)
    (hposition : advance ⟨0, 0⟩ start = ⟨before.count '\n', k⟩) (heq : start ++ rest = before ++ (line ++ after)) :
    byteLength start = byteLength before + k := by
  have hoffset := offsetOf?_advance start rest
  rw [hposition, heq, h.offsetOf?_eq, Nat.min_eq_left hk] at hoffset
  exact (Option.some.inj hoffset).symm

end IsLine

private theorem le_go (k : Nat) (p : Position) (cs : List Char) : p ≤ positionAt.go k p cs := by
  induction cs generalizing k p with
  | nil => exact p.le_refl
  | cons c cs ih =>
    rw [positionAt.go]
    split
    · exact Position.le_def.mpr (.inr ⟨rfl, Nat.le_add_right _ _⟩)
    · exact Position.le_trans (le_advance p [c]) (ih _ _)

private theorem go_lt_go (h : i < k) (hk : k ≤ byteLength cs) (p : Position) :
    positionAt.go i p cs < positionAt.go k p cs := by
  induction cs generalizing i k p with
  | nil =>
    rw [byteLength_nil] at hk
    omega
  | cons c cs ih =>
    rw [byteLength_cons] at hk
    rw [positionAt.go, positionAt.go]
    by_cases hi : i < c.utf8Size
    · by_cases hsize : k < c.utf8Size
      · rw [if_pos hi, if_pos hsize, Position.lt_def]
        exact .inr ⟨rfl, Nat.add_lt_add_left h _⟩
      · rw [if_pos hi, if_neg hsize]
        refine Position.lt_of_lt_of_le (Position.lt_def.mpr ?_) (le_go _ _ _)
        split
        · exact .inl (Nat.lt_succ_self _)
        · exact .inr ⟨rfl, Nat.add_lt_add_left hi _⟩
    · have hsize : ¬ k < c.utf8Size := by omega
      rw [if_neg hi, if_neg hsize]
      exact ih (by omega) (by omega) _

theorem lineStart?_eq_none_iff : lineStart? n cs = none ↔ cs.count '\n' < n := by
  induction cs generalizing n with
  | nil => cases n <;> simp [lineStart?]
  | cons c cs ih =>
    cases n with
    | zero => simp [lineStart?]
    | succ n =>
      rw [lineStart?]
      split
      · next hc => rw [Option.map_eq_none_iff, ih, hc, List.count_cons_self, Nat.add_lt_add_iff_right]
      · next hc => rw [Option.map_eq_none_iff, ih, List.count_cons_of_ne (by simpa using hc)]

theorem offsetOf?_eq_none_iff : offsetOf? p cs = none ↔ cs.count '\n' < p.line := by
  rw [← lineStart?_eq_none_iff, offsetOf?]
  cases lineStart? p.line cs <;> simp

/-- An offset past the end has the position of the end. -/
theorem positionAt_min (i : Nat) (cs : List Char) : positionAt (min i (byteLength cs)) cs = positionAt i cs := by
  by_cases hi : i ≤ byteLength cs
  · rw [Nat.min_eq_left hi]
  · have hend (k : Nat) : positionAt (byteLength cs + k) cs = advance ⟨0, 0⟩ cs := by
      have hgo := go_byteLength_add ⟨0, 0⟩ cs [] k
      rwa [List.append_nil] at hgo
    rw [Nat.min_eq_right (by omega), ← Nat.add_sub_cancel' (Nat.le_of_not_le hi), hend]
    exact hend 0

theorem count_le_byteLength (c : Char) (cs : List Char) : cs.count c ≤ byteLength cs := by
  induction cs with
  | nil => exact Nat.le_refl 0
  | cons d cs ih =>
    have hsize := d.utf8Size_pos
    rw [byteLength_cons, List.count_cons]
    split <;> omega

private theorem byteLength_le_of_isLine (hcs : cs = before ++ (line ++ after)) :
    byteLength before + byteLength line ≤ byteLength cs := by
  rw [hcs, byteLength_append, byteLength_append]
  omega

/-- Offsets and positions of a text are inverse to each other, and keep their order. An offset leads to its position and
back, one past the end back to the end; a position leads to an offset just if there are as many line feeds, and from
there back to the position, or to the end of its line where its column is past it. No coordinate is greater than
the text is long. -/
theorem positions_inverse_to_offsets (cs : List Char) :
    (∀ i, offsetOf? (positionAt i cs) cs = some (min i (byteLength cs))) ∧
      (∀ i j, i < j → j ≤ byteLength cs → positionAt i cs < positionAt j cs) ∧
      (∀ p : Position, offsetOf? p cs = none ↔ cs.count '\n' < p.line) ∧
      (∀ p : Position, p.line ≤ cs.count '\n' → ∃ line j, (splitAtChar '\n' cs)[p.line]? = some line ∧
        offsetOf? p cs = some j ∧ j ≤ byteLength cs ∧ positionAt j cs = ⟨p.line, min p.column (byteLength line)⟩) ∧
      ∀ i, (positionAt i cs).line ≤ byteLength cs ∧ (positionAt i cs).column ≤ byteLength cs := by
  have hplace (i : Nat) : ∃ before line after k, cs = before ++ (line ++ after) ∧ IsLine before line after ∧
      k ≤ byteLength line ∧ min i (byteLength cs) = byteLength before + k ∧
      positionAt i cs = ⟨before.count '\n', k⟩ := by
    obtain ⟨before, line, after, hcs, hline, hle, hge⟩ := exists_isLine_of_le (Nat.min_le_right i (byteLength cs))
    obtain ⟨k, hk⟩ := Nat.exists_eq_add_of_le hle
    have hcolumn : k ≤ byteLength line := by omega
    refine ⟨before, line, after, k, hcs, hline, hcolumn, hk, ?_⟩
    rw [← positionAt_min, hk, hcs]
    exact hline.positionAt_eq hcolumn
  refine ⟨fun i => ?_, fun i j hij hj => go_lt_go hij hj _, fun p => offsetOf?_eq_none_iff, fun p hp => ?_, fun i => ?_⟩
  · obtain ⟨before, line, after, k, hcs, hline, hcolumn, hk, hposition⟩ := hplace i
    rw [hposition, hk, hcs, hline.offsetOf?_eq, Nat.min_eq_left hcolumn]
  · have hlt : p.line < (splitAtChar '\n' cs).length := by
      rw [length_splitAtChar]
      omega
    have hpart := List.getElem?_eq_getElem hlt
    generalize (splitAtChar '\n' cs)[p.line] = line at hpart
    obtain ⟨before, after, hcs, hline, hcount⟩ := exists_isLine_of_getElem? hpart
    have hbytes := byteLength_le_of_isLine hcs
    refine ⟨line, byteLength before + min p.column (byteLength line), hpart, ?_, by omega, ?_⟩
    · rw [hcs, ← hline.offsetOf?_eq, hcount]
    · rw [hcs, hline.positionAt_eq (Nat.min_le_right _ _), hcount]
  · obtain ⟨before, line, after, k, hcs, hline, hcolumn, hk, hposition⟩ := hplace i
    have hbytes := byteLength_le_of_isLine hcs
    have hfeeds : before.count '\n' ≤ byteLength before := count_le_byteLength '\n' before
    rw [hposition]
    constructor <;> dsimp only <;> omega

/-- Two lines, the first with a character of two bytes. -/
def accented : List Char := "é\nab".toList

theorem positions_inverse_to_offsets_accented :
    (1 < 3 ∧ 3 ≤ byteLength accented ∧ positionAt 1 accented < positionAt 3 accented) ∧
      1 ≤ accented.count '\n' ∧ ∃ line j, (splitAtChar '\n' accented)[1]? = some line ∧
        offsetOf? ⟨1, 7⟩ accented = some j ∧ j ≤ byteLength accented ∧
        positionAt j accented = ⟨1, min 7 (byteLength line)⟩ := by
  obtain ⟨-, hmono, -, hline, -⟩ := positions_inverse_to_offsets accented
  exact ⟨⟨by decide, by decide, hmono 1 3 (by decide) (by decide)⟩, by decide, hline ⟨1, 7⟩ (by decide)⟩

end

variable {before line after cs : List Char} {i : Nat}

/-- The byte offsets of the line feeds of a text. -/
def lineBreaks : List Char → List Nat
  | [] => []
  | c :: cs => (if c = '\n' then [0] else []) ++ (lineBreaks cs).map (c.utf8Size + ·)

/-- The offset after the last line feed before an offset, or the start of the text. -/
def lineStartBefore (cs : List Char) (i : Nat) : Nat :=
  match ((lineBreaks cs).filter (· < i)).getLast? with
  | some lineBreak => lineBreak + 1
  | none => 0

/-- The first line feed at an offset or after it, or the end of the text. -/
def lineEndAfter (cs : List Char) (i : Nat) : Nat :=
  match (lineBreaks cs).find? (i ≤ ·) with
  | some lineBreak => lineBreak
  | none => byteLength cs

theorem lineBreaks_append (xs ys : List Char) :
    lineBreaks (xs ++ ys) = lineBreaks xs ++ (lineBreaks ys).map (byteLength xs + ·) := by
  induction xs with
  | nil => simp [lineBreaks]
  | cons c xs ih =>
    rw [List.cons_append, lineBreaks, lineBreaks, ih, List.map_append, List.map_map, List.append_assoc]
    simp only [byteLength_cons, Nat.add_assoc, Function.comp_def]

private theorem lineBreaks_of_notMem (h : '\n' ∉ cs) : lineBreaks cs = [] := by
  induction cs with
  | nil => rfl
  | cons c cs ih =>
    obtain ⟨hc, hcs⟩ := List.ne_and_not_mem_of_not_mem_cons h
    rw [lineBreaks, if_neg hc.symm, ih hcs]
    rfl

theorem lt_of_mem_lineBreaks (h : i ∈ lineBreaks cs) : i < byteLength cs := by
  induction cs generalizing i with
  | nil => cases h
  | cons c cs ih =>
    have hsize := c.utf8Size_pos
    rw [byteLength_cons]
    rcases List.mem_append.mp h with h | h
    · split at h
      · obtain rfl := List.mem_singleton.mp h
        omega
      · cases h
    · obtain ⟨j, hj, rfl⟩ := List.mem_map.mp h
      exact Nat.add_lt_add_left (ih hj) _

/-- After whole lines the last line feed is the last character. -/
theorem WholeLines.getLast?_lineBreaks (h : WholeLines cs) (hne : cs ≠ []) :
    ∃ lineBreak, (lineBreaks cs).getLast? = some lineBreak ∧ lineBreak + 1 = byteLength cs := by
  obtain ⟨init, rfl⟩ : ∃ init, cs = init ++ ['\n'] := by
    have hlast := h _ (List.getLast?_eq_some_getLast hne)
    exact ⟨cs.dropLast, by rw [← hlast, List.dropLast_concat_getLast hne]⟩
  refine ⟨byteLength init, ?_, ?_⟩
  · rw [lineBreaks_append, List.getLast?_append]
    rfl
  · rw [byteLength_append]
    rfl

namespace IsLine

theorem lineBreaks_eq (h : IsLine before line after) : lineBreaks (before ++ (line ++ after)) =
    lineBreaks before ++ (lineBreaks after).map (byteLength before + byteLength line + ·) := by
  rw [lineBreaks_append, lineBreaks_append, lineBreaks_of_notMem h.unbroken, List.nil_append, List.map_map]
  simp only [Function.comp_def, Nat.add_assoc]

theorem lineStartBefore_eq (h : IsLine before line after) (hle : byteLength before ≤ i)
    (hge : i ≤ byteLength before + byteLength line) :
    lineStartBefore (before ++ (line ++ after)) i = byteLength before := by
  have hbefore : (lineBreaks before).filter (· < i) = lineBreaks before := by
    rw [List.filter_eq_self]
    intro b hb
    exact decide_eq_true (Nat.lt_of_lt_of_le (lt_of_mem_lineBreaks hb) hle)
  have hafter : ((lineBreaks after).map (byteLength before + byteLength line + ·)).filter (· < i) = [] := by
    rw [List.filter_eq_nil_iff]
    intro b hb
    obtain ⟨j, -, rfl⟩ := List.mem_map.mp hb
    rw [decide_eq_true_eq]
    omega
  rw [lineStartBefore, h.lineBreaks_eq, List.filter_append, hbefore, hafter, List.append_nil]
  by_cases hne : before = []
  · subst hne
    rfl
  · obtain ⟨lineBreak, hlast, hlength⟩ := h.whole.getLast?_lineBreaks hne
    rw [hlast]
    exact hlength

theorem lineEndAfter_eq (h : IsLine before line after) (hle : byteLength before ≤ i)
    (hge : i ≤ byteLength before + byteLength line) :
    lineEndAfter (before ++ (line ++ after)) i = byteLength before + byteLength line := by
  have hbefore : (lineBreaks before).find? (i ≤ ·) = none := by
    rw [List.find?_eq_none]
    intro b hb
    have hlt := lt_of_mem_lineBreaks hb
    rw [decide_eq_true_eq]
    omega
  rw [lineEndAfter, h.lineBreaks_eq, List.find?_append, hbefore, Option.none_or]
  cases after with
  | nil => rw [List.append_nil, byteLength_append]; rfl
  | cons c after =>
    obtain rfl := h.ended c rfl
    have hfirst : lineBreaks ('\n' :: after) = 0 :: (lineBreaks after).map (Char.utf8Size '\n' + ·) := rfl
    rw [hfirst, List.map_cons, List.find?_cons_of_pos (by simpa using hge)]
    rfl

end IsLine

end PipelineLint.Text
