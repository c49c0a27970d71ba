import PipelineLint.Diagnostic.Basic
import PipelineLint.Proofs.Text.Lines

/-! # What edits do to a text

An edit replaces the text in its range and nothing else. An insertion at the start of a line that ends with a line feed
is one further line, and an insertion in a line leaves the other lines as they are. The edits of a fix are all meant for
the same text, so they are made from the last one to the first one.
-/

namespace PipelineLint

def Range.textIn? (r : Range) (source : List Char) : Option (List Char) := do
  let start ← Text.offsetOf? r.start source
  let stop ← Text.offsetOf? r.stop source
  Text.slice? source start stop

def Edit.textWith? (e : Edit) (source : List Char) : Option (List Char) := do
  let start ← Text.offsetOf? e.range.start source
  let stop ← Text.offsetOf? e.range.stop source
  pure (Text.takeBytes start source ++ e.newText.toList ++ Text.dropBytes stop source)

/-- The text with a fix made, the last edit first. -/
def Action.textWith? (a : Action) (source : List Char) : Option (List Char) :=
  a.edits.foldrM (fun e text => e.textWith? text) source

def Edit.IsInsertion (e : Edit) : Prop := e.range.start = e.range.stop

/-- The position is one of the text: its line is there and is as long as that. -/
def Position.IsIn (p : Position) (source : List Char) : Prop :=
  (Text.offsetOf? p source).map (Text.positionAt · source) = some p

instance (p : Position) (source : List Char) : Decidable (p.IsIn source) :=
  inferInstanceAs (Decidable (_ = some p))

variable {source text : List Char} {r : Range}

/-- An edit replaces the text in its range and nothing else. -/
theorem Range.exists_textWith?_of_textIn? (h : r.textIn? source = some text) : ∃ before after,
    source = before ++ (text ++ after) ∧
      ∀ target : String, (Edit.mk r target).textWith? source = some (before ++ target.toList ++ after) := by
  obtain ⟨start, hstart, h⟩ := Option.bind_eq_some_iff.mp h
  obtain ⟨stop, hstop, h⟩ := Option.bind_eq_some_iff.mp h
  obtain ⟨after, hsource, hbefore, hlength⟩ := Text.exists_append_of_slice? h
  refine ⟨_, after, hsource, fun target => ?_⟩
  have hdrop : Text.dropBytes stop source = after := by
    have hdrop := Text.dropBytes_byteLength (Text.takeBytes start source ++ text) after
    rwa [Text.byteLength_append, hbefore, hlength, List.append_assoc, ← hsource] at hdrop
  simp only [Edit.textWith?, hstart, hstop, Option.bind_eq_bind, Option.bind_some, Option.pure_def, hdrop]

theorem Range.textIn?_append {before text after : List Char} {p : Position}
    (hp : Text.offsetOf? p (before ++ (text ++ after)) = some (Text.byteLength before)) :
    (Range.mk p (Text.advance ⟨0, 0⟩ (before ++ text))).textIn? (before ++ (text ++ after)) = some text := by
  have hstop := Text.offsetOf?_advance (before ++ text) after
  rw [List.append_assoc, Text.byteLength_append] at hstop
  rw [textIn?, hp, hstop]
  exact Text.slice?_append before text after

namespace Edit

open Text

variable {before after front back : List Char} {p : Position} {n : Nat} {new : String}

/-- What is inserted stands between what is before the place and what is after it. -/
theorem textWith?_insert (h : offsetOf? p (before ++ after) = some (byteLength before)) (new : String) :
    (Edit.mk ⟨p, p⟩ new).textWith? (before ++ after) = some (before ++ new.toList ++ after) := by
  simp only [textWith?, h, Option.bind_eq_bind, Option.bind_some, Option.pure_def, takeBytes_byteLength,
    dropBytes_byteLength]

theorem textWith?_eq_none (h : offsetOf? p source = none) (q : Position) (new : String) :
    (Edit.mk ⟨p, q⟩ new).textWith? source = none := by
  rw [textWith?, h]
  rfl

end Edit

namespace Text

variable {before after line new rest : List Char}

theorem exists_line_of_le {cs : List Char} {n : Nat} (hn : n ≤ cs.count '\n') :
    ∃ line, (splitAtChar '\n' cs)[n]? = some line := by
  refine ⟨_, List.getElem?_eq_getElem ?_⟩
  rw [length_splitAtChar]
  exact Nat.lt_succ_of_le hn

/-- Whole lines are the first parts of a text. -/
theorem WholeLines.exists_parts (h : WholeLines before) : ∃ parts : List (List Char),
    parts.length = before.count '\n' ∧ ∀ rest, splitAtChar '\n' (before ++ rest) = parts ++ splitAtChar '\n' rest := by
  by_cases hne : before = []
  · subst hne
    exact ⟨[], rfl, fun _ => rfl⟩
  · obtain ⟨init, rfl⟩ : ∃ init, before = init ++ ['\n'] := by
      have hlast := h _ (List.getLast?_eq_some_getLast hne)
      exact ⟨before.dropLast, by rw [← hlast, List.dropLast_concat_getLast hne]⟩
    refine ⟨splitAtChar '\n' init, ?_, fun rest => ?_⟩
    · rw [length_splitAtChar, List.count_append]
      rfl
    · rw [List.append_assoc, List.singleton_append, splitAtChar_append]

/-- A line put between whole lines and what follows them. -/
theorem splitAtChar_insert (hbefore : WholeLines before) (hnew : '\n' ∉ new) (rest : List Char) :
    splitAtChar '\n' (before ++ (new ++ '\n' :: rest)) =
      (splitAtChar '\n' (before ++ rest)).insertIdx (before.count '\n') new := by
  obtain ⟨parts, hlength, hparts⟩ := hbefore.exists_parts
  have hinsert (xs ys : List (List Char)) : (xs ++ ys).insertIdx xs.length new = xs ++ new :: ys := by
    induction xs with
    | nil => rfl
    | cons x xs ih => rw [List.cons_append, List.length_cons, List.insertIdx_succ_cons, ih, List.cons_append]
  rw [hparts, hparts, ← hlength, hinsert, splitAtChar_append, splitAtChar_of_notMem hnew]
  rfl

/-- A line with other text in its place. -/
theorem IsLine.splitAtChar_set (h : IsLine before line after) {line' : List Char} (hline' : '\n' ∉ line') :
    splitAtChar '\n' (before ++ (line' ++ after)) =
      (splitAtChar '\n' (before ++ (line ++ after))).set (before.count '\n') line' := by
  obtain ⟨parts, hlength, hparts⟩ := h.whole.exists_parts
  obtain ⟨rest, hrest⟩ : ∃ rest, ∀ first : List Char, '\n' ∉ first →
      splitAtChar '\n' (first ++ after) = first :: rest := by
    cases after with
    | nil => exact ⟨[], fun first hfirst => by rw [List.append_nil, splitAtChar_of_notMem hfirst]⟩
    | cons c after =>
      obtain rfl := h.ended c rfl
      exact ⟨splitAtChar '\n' after, fun first hfirst => by
        rw [splitAtChar_append, splitAtChar_of_notMem hfirst, List.singleton_append]⟩
  rw [hparts, hparts, hrest _ hline', hrest _ h.unbroken, ← hlength, List.set_append_right _ _ (Nat.le_refl _),
    Nat.sub_self, List.set_cons_zero]

end Text

/-- A position is one of a text just if its line is there and is as long as that. -/
theorem Position.isIn_iff {p : Position} : p.IsIn source ↔
    ∃ line, (Text.splitAtChar '\n' source)[p.line]? = some line ∧ p.column ≤ Text.byteLength line := by
  obtain ⟨n, column⟩ := p
  constructor
  · intro h
    obtain ⟨i, hi, hp⟩ := Option.map_eq_some_iff.mp h
    have hn : n ≤ source.count '\n' := by
      rw [← Nat.not_lt]
      intro hlt
      rw [Text.offsetOf?_eq_none_iff.mpr hlt] at hi
      cases hi
    obtain ⟨line, hline⟩ := Text.exists_line_of_le hn
    obtain ⟨before, after, rfl, hisLine, rfl⟩ := Text.exists_isLine_of_getElem? hline
    rw [hisLine.offsetOf?_eq] at hi
    obtain rfl := Option.some.inj hi
    rw [hisLine.positionAt_eq (Nat.min_le_right _ _)] at hp
    refine ⟨line, hline, ?_⟩
    rw [← congrArg Position.column hp]
    exact Nat.min_le_right _ _
  · rintro ⟨line, hline, hcolumn⟩
    obtain ⟨before, after, rfl, hisLine, rfl⟩ := Text.exists_isLine_of_getElem? hline
    rw [Position.IsIn, hisLine.offsetOf?_eq, Nat.min_eq_left hcolumn, Option.map_some, hisLine.positionAt_eq hcolumn]

namespace Edit

open Text

/-- A line of its own, put before a line of the text. -/
theorem exists_textWith?_line (hn : n ≤ source.count '\n') (hnew : '\n' ∉ new.toList) : ∃ text,
    (Edit.mk ⟨⟨n, 0⟩, ⟨n, 0⟩⟩ (new ++ "\n")).textWith? source = some text ∧
      splitAtChar '\n' text = (splitAtChar '\n' source).insertIdx n new.toList := by
  obtain ⟨line, hline⟩ := exists_line_of_le hn
  obtain ⟨before, after, rfl, hisLine, rfl⟩ := exists_isLine_of_getElem? hline
  have hoffset := hisLine.offsetOf?_eq 0
  rw [Nat.zero_min, Nat.add_zero] at hoffset
  refine ⟨_, textWith?_insert hoffset _, ?_⟩
  rw [String.toList_append, List.append_assoc, List.append_assoc]
  exact splitAtChar_insert hisLine.whole hnew _

/-- More text in a line. -/
theorem exists_textWith?_inLine (hline : (splitAtChar '\n' source)[n]? = some (front ++ back))
    (hnew : '\n' ∉ new.toList) : ∃ text,
      (Edit.mk ⟨⟨n, byteLength front⟩, ⟨n, byteLength front⟩⟩ new).textWith? source = some text ∧
        splitAtChar '\n' text = (splitAtChar '\n' source).set n (front ++ (new.toList ++ back)) := by
  obtain ⟨before, after, rfl, hisLine, rfl⟩ := exists_isLine_of_getElem? hline
  have hoffset := hisLine.offsetOf?_eq (byteLength front)
  rw [byteLength_append, Nat.min_eq_left (Nat.le_add_right _ _), ← byteLength_append, List.append_assoc,
    ← List.append_assoc before] at hoffset
  rw [List.append_assoc front, ← List.append_assoc before]
  refine ⟨_, textWith?_insert hoffset _, ?_⟩
  have hwhole : '\n' ∉ front ++ (new.toList ++ back) := by
    have hunbroken := hisLine.unbroken
    simp only [List.mem_append, not_or] at hunbroken ⊢
    exact ⟨hunbroken.1, hnew, hunbroken.2⟩
  simpa [List.append_assoc] using hisLine.splitAtChar_set hwhole

end Edit

theorem Action.textWith?_replace (title : String) (range : Range) (new : String) (source : List Char) :
    (Action.replace title range new).textWith? source = (Edit.mk range new).textWith? source := by
  simp [Action.textWith?, Action.replace]

theorem Action.textWith?_pair (title : String) (e e' : Edit) (preferred : Bool) (source : List Char) :
    (Action.mk title [e, e'] preferred).textWith? source = (e'.textWith? source).bind e.textWith? := by
  simp [Action.textWith?]

end PipelineLint
