import PipelineLint.Proofs.Text.Blank
import PipelineLint.Yaml.ScalarText

/-! # What a quoted text stands for

The text that a quoted text stands for is written between the quotation marks, but for escapes, and an escape is no
shorter than what it stands for.
-/

namespace PipelineLint.Yaml.ScalarText

open Text

variable {cs first last : List Char}

/-- A quoted text is written before its closing mark. -/
theorem exists_append_unquote {quote : Char} (hquote : isBlank quote = false) (hlast : cs.getLast? = some quote) :
    ∃ before, cs = before ++ (unquote quote cs ++ [quote]) := by
  obtain ⟨before, after, hbefore, hafter, hcs⟩ := exists_append_trim cs
  have hmark {blanks : List Char} (hblanks : Blanks blanks) : blanks.getLast? ≠ some quote := by
    intro heq
    rw [hblanks quote (List.mem_of_getLast? heq)] at hquote
    cases hquote
  obtain rfl : after = [] := by
    refine Decidable.by_contra fun hne => hmark hafter ?_
    rwa [hcs, List.getLast?_append_of_ne_nil _ hne] at hlast
  rw [List.append_nil] at hcs
  have hne : trim cs ≠ [] := by
    intro heq
    rw [heq, List.append_nil] at hcs
    exact hmark hbefore (hcs ▸ hlast)
  obtain ⟨inside, htrim⟩ : ∃ inside, trim cs = inside ++ [quote] := by
    rw [hcs, List.getLast?_append_of_ne_nil _ hne] at hlast
    exact List.getLast?_eq_some_iff.mp hlast
  rw [unquote, htrim]
  cases inside with
  | nil => exact ⟨before, by simpa [htrim] using hcs⟩
  | cons c inside =>
    by_cases hc : c = quote
    · exact ⟨before ++ [c], by simpa [htrim, hc] using hcs⟩
    · refine ⟨before, ?_⟩
      have hlast : (c :: (inside ++ [quote])).getLast? = some quote := by
        rw [← List.cons_append, List.getLast?_concat]
      simp only [List.cons_append, if_neg hc]
      rw [if_pos hlast, ← List.cons_append, List.dropLast_concat, ← htrim]
      exact hcs

private theorem length_unescape_le (cs : List Char) : (unescape cs).length ≤ cs.length := by
  fun_induction unescape cs <;> simp only [List.length_cons, List.length_nil] <;> omega

private theorem length_undouble_le (cs : List Char) : (undouble cs).length ≤ cs.length := by
  fun_induction undouble cs <;> simp only [List.length_cons, List.length_nil] <;> omega

/-- The sign `@` is written, with at least as much behind it as `last`. -/
def Signed (cs last : List Char) : Prop := ∃ before after, cs = before ++ '@' :: after ∧ last.length ≤ after.length

section Signed

variable {c : Char} {text : List Char}

theorem Signed.cons (h : Signed cs last) (c : Char) : Signed (c :: cs) last := by
  obtain ⟨before, after, rfl, hle⟩ := h
  exact ⟨c :: before, after, rfl, hle⟩

/-- An escape stands for no sign. -/
theorem signed_of_escape (h : c :: text = first ++ '@' :: last) (hc : c ≠ '@')
    (ih : ∀ first, text = first ++ '@' :: last → Signed cs last) : Signed cs last := by
  obtain ⟨-, heq⟩ | ⟨first, -, heq⟩ := List.cons_eq_append_iff.mp h
  · exact absurd (List.cons.inj heq).1.symm hc
  · exact ih first heq

/-- A character that stands for itself may be the sign. -/
theorem signed_of_cons (h : c :: text = first ++ '@' :: last) (hle : text.length ≤ cs.length)
    (ih : ∀ first, text = first ++ '@' :: last → Signed cs last) : Signed (c :: cs) last := by
  obtain ⟨-, heq⟩ | ⟨first, -, heq⟩ := List.cons_eq_append_iff.mp h
  · obtain ⟨rfl, rfl⟩ := List.cons.inj heq
    exact ⟨[], cs, rfl, hle⟩
  · exact (ih first heq).cons c

end Signed

theorem signed_of_unescape (h : unescape cs = first ++ '@' :: last) : Signed cs last := by
  fun_induction unescape cs generalizing first with
  | case1 => simp at h
  | case2 cs ih | case3 cs ih | case4 cs ih | case5 cs ih =>
    exact ((signed_of_escape h (by decide) fun _ => ih).cons _).cons _
  | case6 cs c _ _ _ _ ih =>
    refine (signed_of_escape h (by decide) fun first h => ?_).cons _
    exact signed_of_cons h (length_unescape_le cs) fun _ => ih
  | case7 c cs _ ih => exact signed_of_cons h (length_unescape_le cs) fun _ => ih

theorem signed_of_undouble (h : undouble cs = first ++ '@' :: last) : Signed cs last := by
  fun_induction undouble cs generalizing first with
  | case1 cs ih => exact ((signed_of_escape h (by decide) fun _ => ih).cons _).cons _
  | case2 c cs _ ih => exact signed_of_cons h (length_undouble_le cs) fun _ => ih
  | case3 => simp at h

end PipelineLint.Yaml.ScalarText
