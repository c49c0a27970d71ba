import PipelineLint.Text.Lines

/-! # Splitting

A text is split at the characters of a kind, most often at one mark, or cut at the first of them. Its lines are its
parts between line feeds, less carriage returns, one after the other (`lines_induction`, `lines_feed`).
-/

namespace PipelineLint

namespace Text

variable {mark : Char} {cs first second part : List Char} {parts : List (List Char)}

theorem dropPrefix?_eq_some_iff {start cs rest : List Char} :
    dropPrefix? start cs = some rest ↔ cs = start ++ rest := by
  induction start generalizing cs with
  | nil => simp [dropPrefix?]
  | cons p ps ih =>
    cases cs with
    | nil => simp [dropPrefix?]
    | cons c cs =>
      by_cases hc : p = c
      · simp [dropPrefix?, hc, ih]
      · simp [dropPrefix?, hc, Ne.symm hc]

/-- A text is cut at the first mark in it. -/
theorem cut?_singleton_eq_some_iff {before after : List Char} :
    cut? [mark] cs = some (before, after) ↔ cs = before ++ mark :: after ∧ mark ∉ before := by
  constructor
  · intro h
    refine ⟨?_, notMem_of_cut?_eq_some h⟩
    induction cs generalizing before with
    | nil => simp [cut?] at h
    | cons c cs ih =>
      by_cases hc : mark = c
      · obtain ⟨rfl, rfl⟩ : before = [] ∧ after = cs := by simpa [cut?, dropPrefix?, hc, eq_comm] using h
        rw [hc, List.nil_append]
      · simp only [cut?, dropPrefix?, hc, if_false, Option.map_eq_some_iff, Prod.mk.injEq] at h
        obtain ⟨⟨rest, after⟩, hrest, rfl, rfl⟩ := h
        rw [ih hrest, List.cons_append]
  · rintro ⟨rfl, hnone⟩
    induction before with
    | nil => simp [cut?, dropPrefix?]
    | cons c before ih =>
      simp only [List.mem_cons, not_or] at hnone
      simp [cut?, dropPrefix?, hnone.1, ih hnone.2]

theorem splitOn_eq_splitOnP (p : Char → Bool) (cs : List Char) : splitOn p cs = cs.splitOnP p := by
  induction cs with
  | nil => rfl
  | cons c cs ih =>
    rw [splitOn, List.splitOnP_cons_eq_if_modifyHead, ih]
    split
    · rfl
    · have hne : cs.splitOnP p ≠ [] := List.splitOnP_ne_nil p cs
      cases h : cs.splitOnP p with
      | nil => exact absurd h hne
      | cons part parts => rfl

theorem splitAtChar_eq_splitOn (mark : Char) (cs : List Char) : splitAtChar mark cs = cs.splitOn mark := by
  rw [splitAtChar, splitOn_eq_splitOnP, List.splitOn_eq_splitOnP]

private theorem notMem_of_mem_splitOnP {p : Char → Bool} (h : part ∈ cs.splitOnP p) : ∀ c ∈ part, p c = false := by
  induction cs generalizing part with
  | nil =>
    obtain rfl : part = [] := by simpa using h
    simp
  | cons c cs ih =>
    rw [List.splitOnP_cons_eq_if_modifyHead] at h
    split at h
    · obtain rfl | h := List.mem_cons.mp h
      · simp
      · exact ih h
    next hc =>
    cases hparts : cs.splitOnP p with
    | nil => exact absurd hparts (List.splitOnP_ne_nil p cs)
    | cons head rest =>
      rw [hparts] at ih h
      obtain rfl | h := List.mem_cons.mp h
      · simpa [hc] using ih List.mem_cons_self
      · exact ih (List.mem_cons_of_mem _ h)

theorem notMem_of_mem_splitAtChar (h : part ∈ splitAtChar mark cs) : mark ∉ part := by
  rw [splitAtChar, splitOn_eq_splitOnP] at h
  intro hmark
  simpa using notMem_of_mem_splitOnP h mark hmark

theorem splitAtChar_ne_nil (mark : Char) (cs : List Char) : splitAtChar mark cs ≠ [] := by
  rw [splitAtChar_eq_splitOn]
  exact List.splitOn_ne_nil mark cs

theorem join_splitAtChar (mark : Char) (cs : List Char) : join [mark] (splitAtChar mark cs) = cs := by
  rw [splitAtChar_eq_splitOn, join]
  exact List.intercalate_splitOn mark

theorem splitAtChar_join (hparts : ∀ part ∈ parts, mark ∉ part) (hne : parts ≠ []) :
    splitAtChar mark (join [mark] parts) = parts := by
  rw [splitAtChar_eq_splitOn, join, List.splitOn_intercalate mark hparts hne]

theorem mem_join {c : Char} (hc : c ∈ join [mark] parts) : c = mark ∨ ∃ part ∈ parts, c ∈ part := by
  induction parts with
  | nil => cases hc
  | cons part parts ih =>
    cases parts with
    | nil => exact .inr ⟨part, List.mem_cons_self, by simpa [join, List.intercalate] using hc⟩
    | cons next parts =>
      rw [join, List.intercalate_cons_cons, List.mem_append, List.mem_append, List.mem_singleton] at hc
      rcases hc with (hc | hc) | hc
      · exact .inr ⟨part, List.mem_cons_self, hc⟩
      · exact .inl hc
      · exact (ih hc).imp id fun ⟨part, hpart, hc⟩ => ⟨part, List.mem_cons_of_mem _ hpart, hc⟩

theorem mem_join_of_mem {c : Char} (hpart : part ∈ parts) (hc : c ∈ part) : c ∈ join [mark] parts := by
  induction parts with
  | nil => cases hpart
  | cons first parts ih =>
    cases parts with
    | nil => simpa [join, List.intercalate, List.mem_singleton.mp hpart] using hc
    | cons next parts =>
      rw [join, List.intercalate_cons_cons, List.mem_append, List.mem_append]
      rcases List.mem_cons.mp hpart with rfl | hpart
      · exact .inl (.inl hc)
      · exact .inr (ih hpart)

/-- A text has two parts just if the mark stands in it once. -/
theorem splitAtChar_eq_pair_iff :
    splitAtChar mark cs = [first, second] ↔ cs = first ++ mark :: second ∧ mark ∉ first ∧ mark ∉ second := by
  have hpair : join [mark] [first, second] = first ++ mark :: second := by simp [join, List.intercalate]
  constructor
  · intro h
    have hnone : ∀ part ∈ [first, second], mark ∉ part := fun part hpart => notMem_of_mem_splitAtChar (h ▸ hpart)
    exact ⟨by rw [← hpair, ← h, join_splitAtChar], hnone _ (by simp), hnone _ (by simp)⟩
  · rintro ⟨rfl, hfirst, hsecond⟩
    rw [← hpair]
    exact splitAtChar_join (by simp [hfirst, hsecond]) (by simp)

theorem splitAtChar_append (before after : List Char) :
    splitAtChar mark (before ++ mark :: after) = splitAtChar mark before ++ splitAtChar mark after := by
  simp only [splitAtChar, splitOn_eq_splitOnP]
  exact @List.splitOnP_append_cons _ (· == mark) before after mark (beq_self_eq_true mark)

theorem splitAtChar_of_notMem (h : mark ∉ cs) : splitAtChar mark cs = [cs] := by
  have hparts : ∀ part ∈ [cs], mark ∉ part := List.forall_mem_singleton.mpr h
  have hjoin := splitAtChar_join hparts (by simp)
  simpa [join, List.intercalate] using hjoin

/-- The last part is what follows the last mark. -/
theorem getLast?_splitAtChar (before : List Char) (h : mark ∉ second) :
    (splitAtChar mark (before ++ mark :: second)).getLast? = some second := by
  rw [splitAtChar_append, splitAtChar_of_notMem h, List.getLast?_append]
  rfl

theorem join_cons_of_ne_nil (hne : parts ≠ []) :
    join [mark] (part :: parts) = part ++ mark :: join [mark] parts := by
  obtain ⟨next, parts, rfl⟩ := List.exists_cons_of_ne_nil hne
  rw [join, List.intercalate_cons_cons, List.append_assoc, List.singleton_append, join]

/-- Joined texts start with the first one. -/
theorem exists_join_cons (separator part : List Char) (parts : List (List Char)) :
    ∃ rest, join separator (part :: parts) = part ++ rest := by
  cases parts with
  | nil => exact ⟨[], by simp [join, List.intercalate]⟩
  | cons next parts => exact ⟨_, by rw [join, List.intercalate_cons_cons, List.append_assoc]⟩

/-- A character of joined texts, other than the separator, is one of the first text or of those joined after it. -/
theorem join_cons_eq_append_cons {x : Char} {before after : List Char} (hx : x ≠ mark)
    (h : join [mark] (part :: parts) = before ++ x :: after) : (∃ later, part = before ++ x :: later) ∨
      ∃ later, before = part ++ mark :: later ∧ join [mark] parts = later ++ x :: after := by
  by_cases hne : parts = []
  · subst hne
    exact .inl ⟨after, by simpa [join, List.intercalate] using h⟩
  · rw [join_cons_of_ne_nil hne] at h
    rcases List.append_eq_append_iff.mp h with ⟨later, rfl, hlater⟩ | ⟨later, rfl, hlater⟩
    · cases later with
      | nil => exact absurd (List.cons.inj hlater).1.symm hx
      | cons c later =>
        obtain ⟨rfl, hrest⟩ := List.cons.inj hlater
        exact .inr ⟨later, rfl, hrest⟩
    · cases later with
      | nil => exact absurd (List.cons.inj hlater).1 hx
      | cons c later =>
        obtain ⟨rfl, -⟩ := List.cons.inj hlater
        exact .inl ⟨later, rfl⟩

/-- A text is its last line, or a line and what follows its line feed. -/
theorem lines_induction {motive : List Char → Prop} (last : ∀ line, '\n' ∉ line → motive line)
    (feed : ∀ first rest, '\n' ∉ first → motive rest → motive (first ++ '\n' :: rest)) (cs : List Char) :
    motive cs := by
  cases hcut : cut? ['\n'] cs with
  | none => exact last cs (notMem_of_cut?_eq_none hcut)
  | some parts =>
    obtain ⟨first, rest⟩ := parts
    obtain ⟨rfl, hfirst⟩ := cut?_singleton_eq_some_iff.mp hcut
    exact feed first rest hfirst (lines_induction last feed rest)
termination_by cs.length

theorem lines_feed (h : '\n' ∉ first) (rest : List Char) :
    lines (first ++ '\n' :: rest) = dropReturn first :: lines rest := by
  have hsplit : splitOn (· == '\n') (first ++ '\n' :: rest) = first :: splitOn (· == '\n') rest := by
    have happend : splitAtChar '\n' (first ++ '\n' :: rest) = splitAtChar '\n' first ++ splitAtChar '\n' rest :=
      splitAtChar_append first rest
    rwa [splitAtChar_of_notMem h] at happend
  have hrest : splitOn (· == '\n') rest ≠ [] := splitAtChar_ne_nil '\n' rest
  obtain ⟨before, last, hlast⟩ := List.eq_nil_or_concat (splitOn (· == '\n') rest) |>.resolve_left hrest
  rw [lines, lines, hsplit, hlast]
  cases last <;> simp

theorem lines_of_notMem {line : List Char} (h : '\n' ∉ line) : lines line = if line = [] then [] else [line] := by
  have hsplit : splitOn (· == '\n') line = [line] := splitAtChar_of_notMem h
  rw [lines, hsplit]
  cases line <;> rfl

theorem exists_dropReturn_append (cs : List Char) : ∃ tail, dropReturn cs ++ tail = cs ∧ ∀ c ∈ tail, c = '\r' := by
  rw [dropReturn]
  split
  · next h =>
    obtain ⟨init, rfl⟩ := List.getLast?_eq_some_iff.mp h
    exact ⟨['\r'], by rw [List.dropLast_concat], by simp⟩
  · exact ⟨[], List.append_nil cs, List.forall_mem_nil _⟩

private theorem head?_dropReturn {c : Char} (hc : c ≠ '\r') (h : cs.head? = some c) :
    (dropReturn cs).head? = some c := by
  obtain ⟨rest, rfl⟩ := List.head?_eq_some_iff.mp h
  rw [dropReturn]
  split
  · next hlast =>
    cases rest with
    | nil => exact absurd (Option.some.inj hlast) hc
    | cons d rest => rfl
  · rfl

/-- The first line starts as the text does. -/
theorem head?_lines {c : Char} (h : cs.head? = some c) (hfeed : c ≠ '\n') (hreturn : c ≠ '\r') :
    ∃ line, (lines cs).head? = some line ∧ line.head? = some c := by
  induction cs using lines_induction with
  | last line hline =>
    rw [lines_of_notMem hline]
    split
    · next hnil =>
      subst hnil
      cases h
    · exact ⟨line, rfl, h⟩
  | feed first rest hfirst _ =>
    rw [lines_feed hfirst]
    refine ⟨dropReturn first, rfl, head?_dropReturn hreturn ?_⟩
    cases first with
    | nil => exact absurd (Option.some.inj h).symm hfeed
    | cons d first => exact h

theorem notMem_of_mem_lines {line : List Char} (h : line ∈ lines cs) : '\n' ∉ line := by
  induction cs using lines_induction with
  | last last hlast =>
    rw [lines_of_notMem hlast] at h
    split at h
    · cases h
    · exact List.mem_singleton.mp h ▸ hlast
  | feed first rest hfirst ih =>
    rw [lines_feed hfirst] at h
    rcases List.mem_cons.mp h with rfl | h
    · obtain ⟨tail, hreturn, -⟩ := exists_dropReturn_append first
      exact fun hmem => hfirst (hreturn ▸ List.mem_append_left tail hmem)
    · exact ih h

end Text

end PipelineLint
