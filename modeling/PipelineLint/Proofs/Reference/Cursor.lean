import PipelineLint.Document.Lookup
import PipelineLint.Proofs.Reference.Scan
import PipelineLint.Proofs.Text.Lines

/-! # The reference at the cursor

A reference of a part of a text is a reference of the whole text that lies in that part, and the other way round: the
search may be cut down to a line without losing or gaining any (`filter_findAll_part`). So the reference at an
offset is the last one of the text that lies on the line of the offset and starts at or before it
(`usedAt_eq`). A document looks only between characters.
-/

namespace PipelineLint.Reference

open Text

variable {before line after cs xs ys : List Char} {m : Match} {i : Nat}

/-- The same reference, with its place told from `n` bytes earlier on. -/
def shift (n : Nat) (r : Reference) : Reference := { r with start := n + r.start, stop := n + r.stop }

theorem match?_append (h : match? xs = some m) (ys : List Char) :
    match? (xs ++ ys) = some { m with rest := m.rest ++ ys } := by
  rw [match?_eq_some_iff] at h ⊢
  exact ⟨by rw [← List.append_assoc, ← h.1], h.2⟩

/-- A reference that ends in the first part of a text is one of that part. -/
theorem exists_match?_of_append (h : match? (xs ++ ys) = some m) (hle : byteLength m.whole ≤ byteLength xs) :
    ∃ rest, match? xs = some { m with rest } := by
  obtain ⟨happend, hspells⟩ := match?_eq_some_iff.mp h
  rcases List.append_eq_append_iff.mp happend with ⟨between, hwhole, -⟩ | ⟨rest, hxs, -⟩
  · rw [hwhole, byteLength_append] at hle
    obtain rfl : between = [] := by
      cases between with
      | nil => rfl
      | cons c between =>
        have hsize := c.utf8Size_pos
        rw [byteLength_cons] at hle
        omega
    refine ⟨[], match?_eq_some_iff.mpr ⟨?_, hspells⟩⟩
    rw [hwhole, List.append_nil, List.append_nil]
  · exact ⟨rest, match?_eq_some_iff.mpr ⟨hxs, hspells⟩⟩

private theorem ofMatch_add (n offset : Nat) (m : Match) : ofMatch (n + offset) m = shift n (ofMatch offset m) := by
  simp only [ofMatch, shift, Nat.add_assoc]

private theorem everywhere_add (n offset : Nat) (cs : List Char) :
    everywhere (n + offset) cs = (everywhere offset cs).map (shift n) := by
  induction cs generalizing offset with
  | nil => rfl
  | cons c cs ih =>
    rw [everywhere, everywhere, List.map_append, Nat.add_assoc, ih]
    cases match? (c :: cs) with
    | none => rfl
    | some m => simp [ofMatch_add]

/-- Of the references of a text, those that start after its first part are those of the rest. -/
theorem filter_everywhere_start (offset : Nat) (xs ys : List Char) :
    (everywhere offset (xs ++ ys)).filter (offset + byteLength xs ≤ ·.start) =
      everywhere (offset + byteLength xs) ys := by
  have hall (offset : Nat) (cs : List Char) : ∀ r ∈ everywhere offset cs, offset ≤ r.start := by
    intro r hr
    obtain ⟨before, rest, m, -, -, rfl⟩ := mem_everywhere_iff.mp hr
    exact Nat.le_add_right _ _
  induction xs generalizing offset with
  | nil =>
    rw [List.nil_append, byteLength_nil, Nat.add_zero, List.filter_eq_self]
    intro r hr
    exact decide_eq_true (hall _ _ r hr)
  | cons c xs ih =>
    have hsize := c.utf8Size_pos
    have hfirst : ((match? (c :: (xs ++ ys))).map (ofMatch offset)).toList.filter
        (offset + byteLength (c :: xs) ≤ ·.start) = [] := by
      rw [List.filter_eq_nil_iff]
      intro r hr
      obtain ⟨m, -, rfl⟩ := Option.map_eq_some_iff.mp (Option.mem_toList.mp hr)
      rw [decide_eq_true_eq, byteLength_cons]
      change ¬ offset + (c.utf8Size + byteLength xs) ≤ offset
      omega
    rw [List.cons_append, everywhere, List.filter_append, hfirst, List.nil_append, byteLength_cons, ← Nat.add_assoc, ih]

/-- Of the references of a text, those that end in its first part are those of that part. -/
theorem filter_everywhere_stop (offset : Nat) (xs ys : List Char) :
    (everywhere offset (xs ++ ys)).filter (·.stop ≤ offset + byteLength xs) = everywhere offset xs := by
  induction xs generalizing offset with
  | nil =>
    rw [List.filter_eq_nil_iff.mpr]
    · rfl
    · intro r hr
      obtain ⟨before, rest, m, -, hmatch, rfl⟩ := mem_everywhere_iff.mp hr
      have hpos := (match?_eq_some_iff.mp hmatch).2.byteLength_pos
      rw [decide_eq_true_eq, byteLength_nil]
      change ¬ offset + byteLength before + byteLength m.whole ≤ offset + 0
      omega
  | cons c xs ih =>
    have hfirst : ((match? (c :: xs ++ ys)).map (ofMatch offset)).toList.filter
        (·.stop ≤ offset + byteLength (c :: xs)) = ((match? (c :: xs)).map (ofMatch offset)).toList := by
      cases hpart : match? (c :: xs) with
      | some m =>
        have hle : byteLength m.whole ≤ byteLength (c :: xs) := by
          rw [(match?_eq_some_iff.mp hpart).1, byteLength_append]
          exact Nat.le_add_right _ _
        rw [match?_append hpart]
        exact List.filter_eq_self.mpr (List.forall_mem_singleton.mpr (decide_eq_true (Nat.add_le_add_left hle offset)))
      | none =>
        rw [List.filter_eq_nil_iff.mpr]
        · rfl
        · intro r hr
          obtain ⟨m, hmatch, rfl⟩ := Option.map_eq_some_iff.mp (Option.mem_toList.mp hr)
          rw [decide_eq_true_eq]
          intro hstop
          obtain ⟨rest, hfound⟩ := exists_match?_of_append hmatch (Nat.le_of_add_le_add_left hstop)
          rw [hpart] at hfound
          cases hfound
    rw [List.cons_append, everywhere, everywhere, List.filter_append, ← List.cons_append, hfirst, byteLength_cons,
      ← Nat.add_assoc, ih]

/-- The references of a text that lie in a part of it are those of the part. -/
theorem filter_findAll_part (before line after : List Char) :
    (findAll (before ++ (line ++ after))).filter
        (fun r => byteLength before ≤ r.start ∧ r.stop ≤ byteLength before + byteLength line) =
      (findAll line).map (shift (byteLength before)) := by
  have hstart := filter_everywhere_start 0 before (line ++ after)
  have hstop := filter_everywhere_stop (byteLength before) line after
  have hshift := everywhere_add (byteLength before) 0 line
  rw [Nat.zero_add] at hstart
  rw [Nat.add_zero] at hshift
  rw [findAll_eq_everywhere, findAll_eq_everywhere, ← hshift, ← hstop, ← hstart, List.filter_filter]
  congr 1
  funext r
  rw [Bool.decide_and, Bool.and_comm]

/-- The last line before a place that is not at its start. -/
theorem reverse_takeWhile_wholeLines (hlines : WholeLines xs) (hhead : '\n' ∉ ys) :
    ((xs ++ ys).reverse.takeWhile (· ≠ '\n')).reverse = ys := by
  have hall : ∀ c ∈ ys.reverse, decide (c ≠ '\n') = true := by
    intro c hc
    rw [decide_eq_true_eq]
    rintro rfl
    exact hhead (List.mem_reverse.mp hc)
  rw [List.reverse_append, List.takeWhile_append_of_pos hall]
  cases hxs : xs.reverse with
  | nil => simp
  | cons c rest =>
    obtain rfl : c = '\n' := hlines c (by rw [← List.head?_reverse, hxs]; rfl)
    simp

/-- A place between two characters, with its line around it. -/
theorem exists_isLine_of_isBoundary (h : isBoundary i cs = true) : ∃ before head tail after,
    cs = before ++ (head ++ tail ++ after) ∧ IsLine before (head ++ tail) after ∧
      i = byteLength before + byteLength head := by
  have hi := byteLength_takeBytes h
  obtain ⟨before, head, hbefore, hlines, hhead⟩ := exists_wholeLines (takeBytes i cs)
  refine ⟨before, head, (dropBytes i cs).takeWhile (· ≠ '\n'), (dropBytes i cs).dropWhile (· ≠ '\n'), ?_,
    ⟨hlines, ?_, ?_⟩, ?_⟩
  · rw [List.append_assoc, List.takeWhile_append_dropWhile, ← List.append_assoc, ← hbefore, takeBytes_append_dropBytes]
  · rw [List.mem_append, not_or]
    refine ⟨hhead, fun hmem => ?_⟩
    have hfeed := List.all_eq_true.mp List.all_takeWhile _ hmem
    exact absurd hfeed (by decide)
  · intro c hc
    have hfeed := List.head?_dropWhile_not (· ≠ '\n') (dropBytes i cs)
    rw [Option.mem_def.mp hc] at hfeed
    simpa using hfeed
  · rw [← byteLength_append, ← hbefore, hi]

/-- The references that lie on the line around an offset and start at the offset or before it. -/
def startedOnLine (cs : List Char) (i : Nat) : List Reference :=
  (findAll cs).filter fun r => lineStartBefore cs i ≤ r.start ∧ r.start ≤ i ∧ r.stop ≤ lineEndAfter cs i

private theorem startedOnLine_eq_of_isLine (h : IsLine before line after) (hle : byteLength before ≤ i)
    (hge : i ≤ byteLength before + byteLength line) : startedOnLine (before ++ (line ++ after)) i =
      ((findAll line).filter (byteLength before + ·.start ≤ i)).map (shift (byteLength before)) := by
  have hfilter : ((findAll line).map (shift (byteLength before))).filter (·.start ≤ i) =
      ((findAll line).filter (byteLength before + ·.start ≤ i)).map (shift (byteLength before)) :=
    List.filter_map
  rw [← hfilter, ← filter_findAll_part before line after, List.filter_filter, startedOnLine,
    h.lineStartBefore_eq hle hge, h.lineEndAfter_eq hle hge]
  congr 1
  funext r
  rw [← Bool.decide_and]
  exact decide_eq_decide.mpr and_left_comm

/-- The search for the reference at an offset between two characters stays on the line around it. -/
theorem usedAt_eq (h : isBoundary i cs = true) : usedAt cs i = .ok (startedOnLine cs i).getLast? := by
  obtain ⟨before, head, tail, after, rfl, hline, rfl⟩ := exists_isLine_of_isBoundary h
  have hhead : '\n' ∉ head := fun hmem => hline.unbroken (List.mem_append_left tail hmem)
  have htail : (tail ++ after).takeWhile (· ≠ '\n') = tail :=
    IsLine.takeWhile_eq ⟨hline.whole, fun hmem => hline.unbroken (List.mem_append_right head hmem), hline.ended⟩
  have hmin : min (byteLength before + byteLength head) (byteLength (before ++ (head ++ tail ++ after))) =
      byteLength before + byteLength head := by
    simp only [byteLength_append]
    omega
  have hstarted := startedOnLine_eq_of_isLine (i := byteLength before + byteLength head) hline (Nat.le_add_right _ _)
    (by rw [byteLength_append]; omega)
  have htake := takeBytes_byteLength (before ++ head) (tail ++ after)
  have hdrop := dropBytes_byteLength (before ++ head) (tail ++ after)
  rw [byteLength_append, List.append_assoc, ← List.append_assoc head] at htake hdrop
  rw [usedAt, hstarted]
  simp only [hmin, h, if_true, htake, hdrop, htail, reverse_takeWhile_wholeLines hline.whole hhead,
    Nat.add_sub_cancel, List.getLast?_map]
  rfl

/-- The line around an offset between two characters lies between characters, too. -/
theorem isBoundary_line (h : isBoundary i cs = true) :
    isBoundary (lineStartBefore cs i) cs = true ∧ isBoundary (lineEndAfter cs i) cs = true := by
  obtain ⟨before, head, tail, after, rfl, hline, rfl⟩ := exists_isLine_of_isBoundary h
  have hge : byteLength before + byteLength head ≤ byteLength before + byteLength (head ++ tail) := by
    rw [byteLength_append]
    omega
  have hstop := isBoundary_byteLength (before ++ (head ++ tail)) after
  rw [byteLength_append, List.append_assoc] at hstop
  rw [hline.lineStartBefore_eq (Nat.le_add_right _ _) hge, hline.lineEndAfter_eq (Nat.le_add_right _ _) hge]
  exact ⟨isBoundary_byteLength _ _, hstop⟩

/-- The reference at an offset between two characters is the last one of the text that lies on the line around the
offset and starts there or before, and it is the one that is spelled between its two offsets; the line is cut out
between characters. Reading the reference at a position of a document never fails: the offset of the position may lie
inside a character, where no reference is sought. -/
theorem reference_at_cursor :
    (∀ (cs : List Char) (i : Nat), isBoundary i cs = true →
      usedAt cs i = .ok (startedOnLine cs i).getLast? ∧
        isBoundary (lineStartBefore cs i) cs = true ∧ isBoundary (lineEndAfter cs i) cs = true ∧
        ∀ r, usedAt cs i = .ok (some r) → ∃ whole, slice? cs r.start r.stop = some whole ∧ Occurs cs whole r) ∧
      ∀ (d : Document) (p : Position), d.readReferenceAt p = .ok (d.referenceAt? p) ∧
        d.referenceAt? p = ((offsetOf? p d.source).filter (isBoundary · d.source)).bind fun i =>
          (startedOnLine d.source i).getLast? := by
  refine ⟨fun cs i h => ⟨usedAt_eq h, (isBoundary_line h).1, (isBoundary_line h).2, fun r hr => ?_⟩, fun d p => ?_⟩
  · rw [usedAt_eq h] at hr
    have hmem := List.mem_of_mem_filter (List.mem_of_getLast? (Except.ok.inj hr))
    obtain ⟨whole, hoccurs⟩ := mem_findAll_iff.mp hmem
    exact ⟨whole, hoccurs.slice?_eq, hoccurs⟩
  · have hread : d.readReferenceAt p = .ok (((offsetOf? p d.source).filter (isBoundary · d.source)).bind fun i =>
        (startedOnLine d.source i).getLast?) := by
      rw [Document.readReferenceAt]
      cases offsetOf? p d.source with
      | none => rfl
      | some i =>
        by_cases h : isBoundary i d.source = true
        · simp [Option.filter, h, usedAt_eq h]
        · simp [Option.filter, h]
    rw [Document.referenceAt?, hread]
    exact ⟨rfl, rfl⟩

/-- A reference on the second line, and one that starts there and ends on the third. -/
def brokenReference : List Char := "é\n<< parameters.a >> << parameters.b\n>>".toList

theorem reference_at_cursor_brokenReference :
    isBoundary 30 brokenReference = true ∧
      usedAt brokenReference 30 = .ok (some ⟨"a", "parameters.a", .enclosing, 3, 21⟩) ∧
      ∃ whole, slice? brokenReference 3 21 = some whole ∧
        Occurs brokenReference whole ⟨"a", "parameters.a", .enclosing, 3, 21⟩ := by
  have hboundary : isBoundary 30 brokenReference = true := by decide +kernel
  have hlast : (startedOnLine brokenReference 30).getLast? = some ⟨"a", "parameters.a", .enclosing, 3, 21⟩ := by
    decide +kernel
  obtain ⟨hused, -, -, hoccurs⟩ := reference_at_cursor.1 brokenReference 30 hboundary
  rw [hlast] at hused
  exact ⟨hboundary, hused, hoccurs _ hused⟩

end PipelineLint.Reference
