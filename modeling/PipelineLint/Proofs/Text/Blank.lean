import PipelineLint.Text.Blank
import Mathlib.Data.List.Basic
import Mathlib.Data.List.TakeWhile

/-! # Trimming

Trimming splits a text into blank characters, a middle part and blank characters.
-/

namespace PipelineLint.Text

def Blanks (cs : List Char) : Prop := ∀ c ∈ cs, isBlank c = true

def NoBlank (cs : List Char) : Prop := ∀ c ∈ cs, isBlank c = false

theorem Blanks.reverse {cs : List Char} (h : Blanks cs) : Blanks cs.reverse :=
  fun c hc => h c (List.mem_reverse.mp hc)

private theorem NoBlank.reverse {cs : List Char} (h : NoBlank cs) : NoBlank cs.reverse :=
  fun c hc => h c (List.mem_reverse.mp hc)

theorem blanks_takeWhile (cs : List Char) : Blanks (cs.takeWhile isBlank) :=
  List.all_eq_true.mp List.all_takeWhile

theorem dropWhile_blanks_append {before : List Char} (hb : Blanks before) (rest : List Char) :
    (before ++ rest).dropWhile isBlank = rest.dropWhile isBlank :=
  List.dropWhile_append_of_pos hb

private theorem dropWhile_blanks {cs : List Char} (h : Blanks cs) : cs.dropWhile isBlank = [] := by
  simpa using dropWhile_blanks_append h []

private theorem dropWhile_noBlank {word : List Char} (hw : NoBlank word) (hne : word ≠ [])
    (after : List Char) : (word ++ after).dropWhile isBlank = word ++ after := by
  cases word with
  | nil => exact absurd rfl hne
  | cons c word => simp [hw c List.mem_cons_self]

/-- What trimming leaves stands after the blank characters at the start, with blank characters after it. -/
theorem exists_takeWhile_append_trim (cs : List Char) :
    ∃ after, Blanks after ∧ cs = cs.takeWhile isBlank ++ trim cs ++ after := by
  let rest := cs.dropWhile isBlank
  have hrest : trim cs ++ (rest.reverse.takeWhile isBlank).reverse = rest := by
    rw [trim, trimWhile, dropEndWhile, ← List.reverse_append, List.takeWhile_append_dropWhile, List.reverse_reverse]
  refine ⟨(rest.reverse.takeWhile isBlank).reverse, (blanks_takeWhile _).reverse, ?_⟩
  rw [List.append_assoc, hrest, List.takeWhile_append_dropWhile]

theorem exists_append_trim (cs : List Char) :
    ∃ before after, Blanks before ∧ Blanks after ∧ cs = before ++ trim cs ++ after := by
  obtain ⟨after, hafter, hcs⟩ := exists_takeWhile_append_trim cs
  exact ⟨cs.takeWhile isBlank, after, blanks_takeWhile cs, hafter, hcs⟩

theorem trim_eq_iff {cs word : List Char} (hw : NoBlank word) :
    trim cs = word ↔
      ∃ before after, Blanks before ∧ Blanks after ∧ cs = before ++ word ++ after := by
  constructor
  · rintro rfl
    exact exists_append_trim cs
  · rintro ⟨before, after, hb, ha, rfl⟩
    rw [trim, trimWhile, List.append_assoc, dropWhile_blanks_append hb]
    by_cases hne : word = []
    · subst hne
      rw [List.nil_append, dropWhile_blanks ha]
      rfl
    · have hback := dropWhile_noBlank hw.reverse (by simpa using hne) []
      rw [dropWhile_noBlank hw hne, dropEndWhile, List.reverse_append,
        dropWhile_blanks_append ha.reverse, ← List.append_nil word.reverse, hback]
      simp

/-- Blank characters, then a character that is not blank: where the rest starts is clear. -/
theorem trimStart_eq_cons_iff {cs rest : List Char} {c : Char} (hc : isBlank c = false) :
    trimStart cs = c :: rest ↔ ∃ before, Blanks before ∧ cs = before ++ c :: rest := by
  constructor
  · intro h
    refine ⟨cs.takeWhile isBlank, blanks_takeWhile cs, ?_⟩
    rw [← h, trimStart, List.takeWhile_append_dropWhile]
  · rintro ⟨before, hb, rfl⟩
    rw [trimStart, dropWhile_blanks_append hb]
    simp [hc]

section Edges

variable {p : Char → Bool} {cs before rest after : List Char}

theorem dropWhile_append_of_head (h : ∀ c ∈ rest.head?, p c = false) :
    (before ++ rest).dropWhile p = before.dropWhile p ++ rest := by
  induction before with
  | nil =>
    cases rest with
    | nil => rfl
    | cons c rest => simp [h c rfl]
  | cons c before ih =>
    cases hc : p c with
    | false => simp [hc]
    | true => simp [hc, ih]

theorem dropWhile_run (hrun : ∀ c ∈ before, p c = true) (h : ∀ c ∈ rest.head?, p c = false) :
    (before ++ rest).dropWhile p = rest := by
  rw [dropWhile_append_of_head h, List.dropWhile_eq_nil_iff.mpr hrun, List.nil_append]

theorem head_dropWhile (p : Char → Bool) (cs : List Char) : ∀ c ∈ (cs.dropWhile p).head?, p c = false := by
  intro c hc
  have hnot := List.head?_dropWhile_not p cs
  rwa [hc] at hnot

theorem takeWhile_run (hrun : ∀ c ∈ before, p c = true) (h : ∀ c ∈ rest.head?, p c = false) :
    (before ++ rest).takeWhile p = before := by
  have hsplit := List.takeWhile_append_dropWhile (p := p) (l := before ++ rest)
  rw [dropWhile_run hrun h] at hsplit
  exact List.append_cancel_right hsplit

private theorem dropEndWhile_append_of_last (h : ∀ c ∈ cs.getLast?, p c = false) :
    dropEndWhile p (cs ++ after) = cs ++ dropEndWhile p after := by
  rw [← List.head?_reverse] at h
  rw [dropEndWhile, List.reverse_append, dropWhile_append_of_head h, List.reverse_append, List.reverse_reverse,
    dropEndWhile]

/-- Around a middle part whose ends stay, trimming takes from what stands before it and after it. -/
theorem trimWhile_append (hhead : ∀ c ∈ cs.head?, p c = false) (hlast : ∀ c ∈ cs.getLast?, p c = false)
    (hne : cs ≠ []) :
    trimWhile p (before ++ (cs ++ after)) = before.dropWhile p ++ (cs ++ dropEndWhile p after) := by
  have hhead' : ∀ c ∈ (cs ++ after).head?, p c = false := by
    rwa [List.head?_append_of_ne_nil _ hne]
  have hlast' : ∀ c ∈ (before.dropWhile p ++ cs).getLast?, p c = false := by
    rwa [List.getLast?_append_of_ne_nil _ hne]
  rw [trimWhile, dropWhile_append_of_head hhead', ← List.append_assoc, dropEndWhile_append_of_last hlast',
    List.append_assoc]

/-- What is removed from the end. -/
theorem exists_dropEndWhile_append (p : Char → Bool) (cs : List Char) :
    ∃ after, dropEndWhile p cs ++ after = cs ∧ ∀ c ∈ after, p c = true := by
  refine ⟨(cs.reverse.takeWhile p).reverse, ?_, fun c hc => ?_⟩
  · rw [dropEndWhile, ← List.reverse_append, List.takeWhile_append_dropWhile, List.reverse_reverse]
  · exact List.all_eq_true.mp List.all_takeWhile c (List.mem_reverse.mp hc)

theorem dropEndWhile_eq_nil_iff : dropEndWhile p cs = [] ↔ ∀ c ∈ cs, p c = true := by
  rw [dropEndWhile, List.reverse_eq_nil_iff, List.dropWhile_eq_nil_iff]
  simp only [List.mem_reverse]

end Edges

end PipelineLint.Text
