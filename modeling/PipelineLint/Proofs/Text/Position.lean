import PipelineLint.Position
import PipelineLint.Proofs.Text.Measure

/-! # Positions and offsets

A position tells the same as a byte offset between two characters: `offsetOf?` leads back where `positionAt` comes from.
What stands before an offset matters for its position by its line feeds and its bytes, and what stands after it does
not.

A text has the bytes of its characters in a row, and a byte of an ASCII character never occurs in another one.
-/

namespace PipelineLint

theorem Position.lt_of_lt_of_le {p q r : Position} (h : p < q) (h' : q ≤ r) : p < r :=
  ⟨le_trans h.1 h', fun hle => h.2 (le_trans h' hle)⟩

theorem Range.contains_iff {r : Range} {p : Position} : r.contains p ↔ r.start ≤ p ∧ p ≤ r.stop := by
  rw [contains, Bool.and_eq_true, decide_eq_true_eq, decide_eq_true_eq]

theorem Range.contains_of_containsRange {r r' : Range} {p : Position} (h : r.containsRange r') (hp : r'.contains p) :
    r.contains p := by
  rw [containsRange, Bool.and_eq_true, contains_iff, contains_iff] at h
  rw [contains_iff] at hp ⊢
  exact ⟨Position.le_trans h.1.1 hp.1, Position.le_trans hp.2 h.2.2⟩

namespace Text

variable {p : Position} {before after cs xs ys : List Char}

theorem advance_append (p : Position) (xs ys : List Char) : advance p (xs ++ ys) = advance (advance p xs) ys := by
  induction xs generalizing p with
  | nil => rfl
  | cons c xs ih => exact ih _

/-- What comes later in a text has no smaller position. -/
theorem le_advance (p : Position) (cs : List Char) : p ≤ advance p cs := by
  induction cs generalizing p with
  | nil => exact p.le_refl
  | cons c cs ih =>
    refine Position.le_trans (Position.le_def.mpr ?_) (ih _)
    split
    · exact .inl (Nat.lt_succ_self _)
    · exact .inr ⟨rfl, Nat.le_add_right _ _⟩

theorem lt_advance (p : Position) (hne : cs ≠ []) : p < advance p cs := by
  obtain ⟨c, cs, rfl⟩ := List.exists_cons_of_ne_nil hne
  rw [advance]
  generalize hnext : (if c = '\n' then (⟨p.line + 1, 0⟩ : Position) else ⟨p.line, p.column + c.utf8Size⟩) = next
  have hlt : p < next := by
    have hsize := c.utf8Size_pos
    rw [← hnext, Position.lt_def]
    split
    · exact .inl (Nat.lt_succ_self _)
    · exact .inr ⟨rfl, Nat.lt_add_of_pos_right hsize⟩
  exact Position.lt_of_lt_of_le hlt (le_advance _ _)

theorem go_byteLength_add (p : Position) (xs ys : List Char) (k : Nat) :
    positionAt.go (byteLength xs + k) p (xs ++ ys) = positionAt.go k (advance p xs) ys := by
  induction xs generalizing p with
  | nil => rw [byteLength_nil, Nat.zero_add, List.nil_append, advance]
  | cons c xs ih =>
    rw [byteLength_cons, Nat.add_assoc, List.cons_append, positionAt.go, if_neg (by omega), Nat.add_sub_cancel_left, ih,
      advance]

theorem go_byteLength_append (p : Position) (before after : List Char) :
    positionAt.go (byteLength before) p (before ++ after) = advance p before := by
  induction before generalizing p with
  | nil =>
    cases after with
    | nil => rfl
    | cons c cs => simp [positionAt.go, advance, c.utf8Size_pos]
  | cons c before ih =>
    rw [byteLength_cons, List.cons_append, positionAt.go, if_neg (by omega), Nat.add_sub_cancel_left, ih]
    rfl

/-- The position of the offset after a first part of a text. -/
theorem positionAt_byteLength (before after : List Char) :
    positionAt (byteLength before) (before ++ after) = advance ⟨0, 0⟩ before := go_byteLength_append _ before after

/-- Lines as a whole: a text that is empty or ends with a line feed. -/
def WholeLines (cs : List Char) : Prop := ∀ c ∈ cs.getLast?, c = '\n'

theorem WholeLines.tail {c : Char} (h : WholeLines (c :: cs)) (hne : cs ≠ []) : WholeLines cs := by
  intro d hd
  refine h d ?_
  rwa [List.getLast?_cons_of_ne_nil hne]

/-- A text is some lines and the start of a further line. -/
theorem exists_wholeLines (cs : List Char) : ∃ lines tail, cs = lines ++ tail ∧ WholeLines lines ∧ '\n' ∉ tail := by
  induction cs with
  | nil => exact ⟨[], [], rfl, nofun, List.not_mem_nil⟩
  | cons c cs ih =>
    obtain ⟨lines, tail, rfl, hlines, htail⟩ := ih
    by_cases hne : lines = []
    · subst hne
      by_cases hc : c = '\n'
      · subst hc
        exact ⟨['\n'], tail, rfl, by rintro _ ⟨⟩; rfl, htail⟩
      · exact ⟨[], c :: tail, rfl, nofun, by simpa [htail] using Ne.symm hc⟩
    · refine ⟨c :: lines, tail, rfl, ?_, htail⟩
      intro d hd
      rw [List.getLast?_cons_of_ne_nil hne] at hd
      exact hlines d hd

theorem WholeLines.eq_of_singleton {c : Char} (h : WholeLines [c]) : c = '\n' := h c rfl

theorem advance_wholeLines (h : WholeLines cs) (hne : cs ≠ []) (p : Position) :
    advance p cs = ⟨p.line + cs.count '\n', 0⟩ := by
  induction cs generalizing p with
  | nil => exact absurd rfl hne
  | cons c cs ih =>
    by_cases hcs : cs = []
    · subst hcs
      obtain rfl := h.eq_of_singleton
      rfl
    · rw [advance, ih (h.tail hcs) hcs, List.count_cons]
      by_cases hc : c = '\n' <;> simp [hc, Nat.add_comm, Nat.add_left_comm]

theorem WholeLines.advance_eq (h : WholeLines cs) : advance ⟨0, 0⟩ cs = ⟨cs.count '\n', 0⟩ := by
  by_cases hne : cs = []
  · subst hne
    rfl
  · rw [advance_wholeLines h hne, Nat.zero_add]

theorem advance_of_notMem (h : '\n' ∉ cs) (p : Position) : advance p cs = ⟨p.line, p.column + byteLength cs⟩ := by
  induction cs generalizing p with
  | nil => rfl
  | cons c cs ih =>
    obtain ⟨hc, hcs⟩ := List.ne_and_not_mem_of_not_mem_cons h
    rw [advance, if_neg hc.symm, ih hcs, byteLength_cons, Nat.add_assoc]

theorem advance_feed {first : List Char} (h : '\n' ∉ first) (p : Position) (rest : List Char) :
    advance p (first ++ '\n' :: rest) = advance ⟨p.line + 1, 0⟩ rest := by
  rw [advance_append, advance_of_notMem h, advance, if_pos rfl]

theorem WholeLines.count_pos (h : WholeLines cs) (hne : cs ≠ []) : 0 < cs.count '\n' := by
  have hlast : cs.getLast hne = '\n' := h _ (List.getLast?_eq_some_getLast hne)
  exact List.count_pos_iff.mpr (hlast ▸ List.getLast_mem hne)

theorem lineStart?_wholeLines (h : WholeLines cs) (after : List Char) :
    lineStart? (cs.count '\n') (cs ++ after) = some (byteLength cs) := by
  induction cs with
  | nil => simp [lineStart?]
  | cons c cs ih =>
    by_cases hcs : cs = []
    · subst hcs
      obtain rfl := h.eq_of_singleton
      simp [lineStart?]
      rfl
    · have hcs' := ih (h.tail hcs)
      by_cases hc : c = '\n'
      · rw [hc, List.count_cons_self, List.cons_append, lineStart?, if_pos rfl, hcs', byteLength_cons, Nat.add_comm]
        rfl
      · obtain ⟨n, hn⟩ : ∃ n, cs.count '\n' = n + 1 :=
          Nat.exists_eq_succ_of_ne_zero (Nat.ne_of_gt ((h.tail hcs).count_pos hcs))
        rw [List.count_cons_of_ne (by simpa using hc), hn, List.cons_append, lineStart?, if_neg hc, ← hn, hcs',
          byteLength_cons, Option.map_some, Nat.add_comm]

/-- An offset between two characters is that of its position. -/
theorem offsetOf?_advance (before after : List Char) :
    offsetOf? (advance ⟨0, 0⟩ before) (before ++ after) = some (byteLength before) := by
  obtain ⟨lines, tail, rfl, hlines, htail⟩ := exists_wholeLines before
  have hline : (tail ++ after).takeWhile (· ≠ '\n') = tail ++ after.takeWhile (· ≠ '\n') :=
    List.takeWhile_append_of_pos fun c hc => by
      simpa using fun heq : c = '\n' => htail (heq ▸ hc)
  have hdrop := dropBytes_byteLength lines (tail ++ after)
  rw [advance_append, hlines.advance_eq, advance_of_notMem htail, List.append_assoc, offsetOf?]
  dsimp only
  rw [lineStart?_wholeLines hlines]
  simp only [Option.bind_eq_bind, Option.bind_some, Option.pure_def, hdrop, hline, byteLength_append, Nat.zero_add,
    Nat.min_eq_left (Nat.le_add_right _ _)]

section Bytes

variable {c : Char} {i : Nat}

def bytes (cs : List Char) : List UInt8 := cs.flatMap String.utf8EncodeChar

@[simp] theorem bytes_cons (c : Char) (cs : List Char) : bytes (c :: cs) = String.utf8EncodeChar c ++ bytes cs := rfl

@[simp] theorem bytes_append (xs ys : List Char) : bytes (xs ++ ys) = bytes xs ++ bytes ys := List.flatMap_append

@[simp] theorem length_bytes (cs : List Char) : (bytes cs).length = byteLength cs := by
  induction cs with
  | nil => rfl
  | cons c cs ih => rw [bytes_cons, List.length_append, ih, String.length_utf8EncodeChar, byteLength_cons]

private theorem utf8EncodeChar_of_lt (h : c.toNat < 0x80) : String.utf8EncodeChar c = [UInt8.ofNat c.toNat] := by
  have hval : c.val.toNat ≤ 127 := Nat.le_of_lt_succ h
  rw [String.utf8EncodeChar, if_pos hval]
  rfl

/-- All bytes of a character that is not ASCII are no ASCII bytes. -/
theorem le_of_mem_utf8EncodeChar {b : UInt8} (h : 0x80 ≤ c.toNat) (hb : b ∈ String.utf8EncodeChar c) :
    0x80 ≤ b.toNat := by
  have hval : ¬ c.val.toNat ≤ 127 := Nat.not_le_of_lt h
  simp only [String.utf8EncodeChar, if_neg hval] at hb
  split at hb
  · simp only [List.mem_cons, List.not_mem_nil, or_false] at hb
    rcases hb with rfl | rfl <;> rw [UInt8.toNat_ofNat'] <;> omega
  · split at hb
    · simp only [List.mem_cons, List.not_mem_nil, or_false] at hb
      rcases hb with rfl | rfl | rfl <;> rw [UInt8.toNat_ofNat'] <;> omega
    · simp only [List.mem_cons, List.not_mem_nil, or_false] at hb
      rcases hb with rfl | rfl | rfl | rfl <;> rw [UInt8.toNat_ofNat'] <;> omega

/-- The byte of an ASCII character is not among those of another character. -/
theorem eq_of_mem_utf8EncodeChar {n : Nat} (hn : n < 0x80) (hb : UInt8.ofNat n ∈ String.utf8EncodeChar c) :
    c.toNat = n := by
  have htoNat : (UInt8.ofNat n).toNat = n := by
    rw [UInt8.toNat_ofNat']
    omega
  by_cases hc : c.toNat < 0x80
  · rw [utf8EncodeChar_of_lt hc, List.mem_singleton] at hb
    rw [← htoNat, hb, UInt8.toNat_ofNat']
    omega
  · have hle := le_of_mem_utf8EncodeChar (Nat.le_of_not_lt hc) hb
    omega

/-- The bytes from an offset on after a first part of a text. -/
theorem getElem?_bytes_append (before after : List Char) (i : Nat) :
    (bytes (before ++ after))[byteLength before + i]? = (bytes after)[i]? := by
  rw [bytes_append, ← length_bytes before, List.getElem?_append_right (Nat.le_add_right _ _), Nat.add_sub_cancel_left]

theorem getElem?_bytes_append_of_lt (h : i < byteLength xs) : (bytes (xs ++ ys))[i]? = (bytes xs)[i]? := by
  rw [bytes_append, List.getElem?_append_left (by rwa [length_bytes])]

/-- The position of an offset in the second part of a text. -/
theorem positionAt_append (before after : List Char) (i : Nat) :
    positionAt (byteLength before + i) (before ++ after) = positionAt.go i (advance ⟨0, 0⟩ before) after :=
  go_byteLength_add _ before after i

theorem go_append_of_le (h : i ≤ byteLength xs) (p : Position) (ys : List Char) :
    positionAt.go i p (xs ++ ys) = positionAt.go i p xs := by
  induction xs generalizing i p with
  | nil =>
    obtain rfl : i = 0 := Nat.le_zero.mp h
    cases ys with
    | nil => rfl
    | cons c ys => simp [positionAt.go, c.utf8Size_pos]
  | cons c xs ih =>
    rw [List.cons_append, positionAt.go, positionAt.go]
    split
    · rfl
    · refine ih ?_ _
      rw [byteLength_cons] at h
      omega

end Bytes

end Text

end PipelineLint
