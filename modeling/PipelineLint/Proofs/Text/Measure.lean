import PipelineLint.Text.Measure

/-! # Slices of texts in a row

What stands before or after a text does not change the slices that lie in it.
-/

namespace PipelineLint.Text

variable {xs ys : List Char} {n start stop : Nat}

/-- The measure of a text is the length of its UTF-8 form. -/
theorem byteLength_toList (text : String) : byteLength text.toList = text.utf8ByteSize := by
  have hlength (cs : List Char) : (String.ofList cs).utf8ByteSize = byteLength cs := by
    induction cs with
    | nil => rfl
    | cons c cs ih =>
      rw [String.ofList_cons, String.utf8ByteSize_append, String.utf8ByteSize_singleton, ih, byteLength_cons]
  rw [← hlength, String.ofList_toList]

theorem byteLength_eq_zero_iff : byteLength xs = 0 ↔ xs = [] := by
  cases xs with
  | nil => simp
  | cons c xs => simp [Nat.ne_of_gt c.utf8Size_pos]

theorem byteLength_pos (hne : xs ≠ []) : 0 < byteLength xs := Nat.pos_of_ne_zero (mt byteLength_eq_zero_iff.mp hne)

theorem dropBytes_byteLength_add (xs ys : List Char) (n : Nat) :
    dropBytes (byteLength xs + n) (xs ++ ys) = dropBytes n ys := by
  induction xs with
  | nil => simp
  | cons c xs ih => simp [dropBytes, Nat.add_assoc, Nat.ne_of_gt c.utf8Size_pos, ih]

theorem takeBytes_byteLength_add (xs ys : List Char) (n : Nat) :
    takeBytes (byteLength xs + n) (xs ++ ys) = xs ++ takeBytes n ys := by
  induction xs with
  | nil => simp
  | cons c xs ih => simp [takeBytes, Nat.add_assoc, Nat.ne_of_gt c.utf8Size_pos, ih]

theorem isBoundary_byteLength_add (xs ys : List Char) (n : Nat) :
    isBoundary (byteLength xs + n) (xs ++ ys) = isBoundary n ys := by
  induction xs with
  | nil => simp
  | cons c xs ih => simp [isBoundary, Nat.add_assoc, Nat.ne_of_gt c.utf8Size_pos, ih]

theorem isBoundary_zero (cs : List Char) : isBoundary 0 cs := by
  cases cs <;> simp [isBoundary]

theorem takeBytes_append_of_le (h : n ≤ byteLength xs) : takeBytes n (xs ++ ys) = takeBytes n xs := by
  induction xs generalizing n with
  | nil =>
    obtain rfl : n = 0 := by simpa using h
    cases ys <;> simp [takeBytes]
  | cons c xs ih =>
    have h : n - c.utf8Size ≤ byteLength xs := by
      rw [byteLength_cons] at h
      omega
    simp [takeBytes, ih h]

private theorem dropBytes_append_of_le (h : n ≤ byteLength xs) : dropBytes n (xs ++ ys) = dropBytes n xs ++ ys := by
  induction xs generalizing n with
  | nil =>
    obtain rfl : n = 0 := by simpa using h
    cases ys <;> simp [dropBytes]
  | cons c xs ih =>
    have h : n - c.utf8Size ≤ byteLength xs := by
      rw [byteLength_cons] at h
      omega
    by_cases hn : n = 0 <;> simp [dropBytes, hn, ih h]

theorem isBoundary_append_of_le (h : n ≤ byteLength xs) : isBoundary n (xs ++ ys) = isBoundary n xs := by
  induction xs generalizing n with
  | nil =>
    obtain rfl : n = 0 := by simpa using h
    simp [isBoundary_zero]
  | cons c xs ih =>
    have h : n - c.utf8Size ≤ byteLength xs := by
      rw [byteLength_cons] at h
      omega
    simp [isBoundary, ih h]

theorem byteLength_takeBytes (h : isBoundary n xs) : byteLength (takeBytes n xs) = n := by
  induction xs generalizing n with
  | nil =>
    obtain rfl : n = 0 := by simpa [isBoundary] using h
    rfl
  | cons c xs ih =>
    by_cases hn : n = 0
    · simp [takeBytes, hn]
    · simp only [isBoundary, hn, decide_false, Bool.false_or, Bool.and_eq_true, decide_eq_true_eq] at h
      simp only [takeBytes, hn, if_false, byteLength_cons, ih h.2]
      omega

theorem slice_byteLength_add (xs ys : List Char) (start stop : Nat) :
    slice (xs ++ ys) (byteLength xs + start) (byteLength xs + stop) = slice ys start stop := by
  simp only [slice, slice?, isBoundary_byteLength_add, dropBytes_byteLength_add, Nat.add_le_add_iff_left,
    Nat.add_sub_add_left]

theorem slice_append_of_le (h : stop ≤ byteLength xs) : slice (xs ++ ys) start stop = slice xs start stop := by
  by_cases hle : start ≤ stop
  · have hstart := Nat.le_trans hle h
    have htake : isBoundary start xs → takeBytes (stop - start) (dropBytes start xs ++ ys) =
        takeBytes (stop - start) (dropBytes start xs) := by
      intro hboundary
      have hlength := congrArg byteLength (takeBytes_append_dropBytes start xs)
      rw [byteLength_append, byteLength_takeBytes hboundary] at hlength
      exact takeBytes_append_of_le (by omega)
    simp only [slice, slice?, isBoundary_append_of_le h, isBoundary_append_of_le hstart, dropBytes_append_of_le hstart]
    split
    · rename_i hslice
      rw [htake hslice.2.1]
    · rfl
  · simp [slice, slice?, hle]

/-- A text around one of its slices. -/
theorem exists_append_of_slice? {cs text : List Char} (h : slice? cs start stop = some text) :
    ∃ after, cs = takeBytes start cs ++ (text ++ after) ∧ byteLength (takeBytes start cs) = start ∧
      start + byteLength text = stop := by
  simp only [slice?, Option.ite_none_right_eq_some, Option.some.injEq] at h
  obtain ⟨⟨hle, hstart, hstop⟩, rfl⟩ := h
  have hbefore := byteLength_takeBytes hstart
  have hrest : isBoundary (stop - start) (dropBytes start cs) := by
    have hat := isBoundary_byteLength_add (takeBytes start cs) (dropBytes start cs) (stop - start)
    rw [hbefore, takeBytes_append_dropBytes, Nat.add_sub_cancel' hle] at hat
    rw [← hat]
    exact hstop
  refine ⟨dropBytes (stop - start) (dropBytes start cs), ?_, hbefore, ?_⟩
  · rw [takeBytes_append_dropBytes, takeBytes_append_dropBytes]
  · rw [byteLength_takeBytes hrest, Nat.add_sub_cancel' hle]

theorem dropBytes_byteLength (xs ys : List Char) : dropBytes (byteLength xs) (xs ++ ys) = ys := by
  have h := dropBytes_byteLength_add xs ys 0
  rw [Nat.add_zero] at h
  rw [h]
  cases ys <;> rfl

theorem takeBytes_byteLength (xs ys : List Char) : takeBytes (byteLength xs) (xs ++ ys) = xs := by
  have h := takeBytes_byteLength_add xs ys 0
  rw [Nat.add_zero] at h
  rw [h]
  cases ys <;> exact List.append_nil xs

/-- Two first parts of a text with as many bytes are one. -/
theorem append_inj_of_byteLength {xs' ys' : List Char} (h : xs ++ ys = xs' ++ ys')
    (hlength : byteLength xs = byteLength xs') : xs = xs' ∧ ys = ys' := by
  have hxs : xs = xs' := by rw [← takeBytes_byteLength xs ys, h, hlength, takeBytes_byteLength]
  subst hxs
  exact ⟨rfl, List.append_cancel_left h⟩

theorem isBoundary_byteLength (xs ys : List Char) : isBoundary (byteLength xs) (xs ++ ys) := by
  have h := isBoundary_byteLength_add xs ys 0
  rw [Nat.add_zero] at h
  rw [h]
  exact isBoundary_zero ys

/-- The offsets of a part of a text cut it out. -/
theorem slice?_append (before text after : List Char) :
    slice? (before ++ (text ++ after)) (byteLength before) (byteLength before + byteLength text) = some text := by
  have hstop := isBoundary_byteLength (before ++ text) after
  rw [byteLength_append, List.append_assoc] at hstop
  rw [slice?, if_pos ⟨Nat.le_add_right _ _, isBoundary_byteLength _ _, hstop⟩, Nat.add_sub_cancel_left,
    dropBytes_byteLength, takeBytes_byteLength]

end PipelineLint.Text
