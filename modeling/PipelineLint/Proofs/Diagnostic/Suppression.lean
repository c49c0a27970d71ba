import PipelineLint.Diagnostic.Suppression
import PipelineLint.Proofs.Text.Blank
import Mathlib.Tactic.SplitIfs
import PipelineLint.Proofs.Yaml.Cursor
import PipelineLint.Document.Parse
import Mathlib.Data.List.Infix
import Mathlib.Data.List.Induction

/-! # What suppression comments hide

A start opens a range unless one is open, and the first end after it closes the range. The other starts
and ends, and a range that stays open, are found. All this is said of the comments themselves; the scan is
shown to agree with it, one comment after the other.

Each directive has its form, and the forms exclude each other: the last number sign of a comment with a
directive stands before its word, with nothing but blank characters around that. So the order in which the
forms are tried does not matter.
-/

namespace PipelineLint

section

open Text

namespace Directive

/-- A word between blank characters. -/
def IsWord (word : String) (cs : List Char) : Prop :=
  ∃ before after, Blanks before ∧ Blanks after ∧ cs = before ++ word.toList ++ after

/-- The form of a comment with a directive: a number sign and the word. Only the directive for its own
line may stand behind other text. -/
def Matches (d : Directive) (cs : List Char) : Prop :=
  ∃ start rest, cs = start ++ '#' :: rest ∧ IsWord d.word rest ∧ (d = .thisLine ∨ Blanks start)

private theorem noBlank_word (d : Directive) : NoBlank d.word.toList := by
  cases d <;> simp [word, NoBlank] <;> decide

private theorem number_sign_notMem_word (d : Directive) : '#' ∉ d.word.toList := by
  cases d <;> simp [word]

private theorem word_injective {d d' : Directive} (h : d.word = d'.word) : d = d' := by
  cases d <;> cases d' <;> first | rfl | simp [word] at h

private theorem trim_eq_word_iff {d : Directive} {cs : List Char} :
    trim cs = d.word.toList ↔ IsWord d.word cs :=
  trim_eq_iff (noBlank_word d)

private theorem isWholeComment_iff {d : Directive} {cs : List Char} :
    isWholeComment d.word cs = true ↔
      ∃ start rest, cs = start ++ '#' :: rest ∧ IsWord d.word rest ∧ Blanks start := by
  constructor
  · intro h
    rw [isWholeComment] at h
    split at h
    · rename_i rest hrest
      obtain ⟨start, hs, rfl⟩ := (trimStart_eq_cons_iff (by decide)).mp hrest
      exact ⟨start, rest, rfl, trim_eq_word_iff.mp (by simpa using h), hs⟩
    · cases h
  · rintro ⟨start, rest, rfl, hw, hs⟩
    have hrest : trimStart (start ++ '#' :: rest) = '#' :: rest :=
      (trimStart_eq_cons_iff (by decide)).mpr ⟨start, hs, rfl⟩
    rw [isWholeComment, hrest]
    simpa using trim_eq_word_iff.mpr hw

private theorem endsComment_iff {d : Directive} {cs : List Char} :
    endsComment d.word cs = true ↔ ∃ start rest, cs = start ++ '#' :: rest ∧ IsWord d.word rest := by
  induction cs with
  | nil => simp [endsComment]
  | cons c cs ih =>
    rw [endsComment, Bool.or_eq_true, Bool.and_eq_true, beq_iff_eq, beq_iff_eq, trim_eq_word_iff, ih]
    constructor
    · rintro (⟨rfl, hw⟩ | ⟨start, rest, rfl, hw⟩)
      · exact ⟨[], cs, rfl, hw⟩
      · exact ⟨c :: start, rest, rfl, hw⟩
    · rintro ⟨start, rest, h, hw⟩
      cases start with
      | nil =>
        obtain ⟨rfl, rfl⟩ := List.cons.inj h
        exact .inl ⟨rfl, hw⟩
      | cons d start =>
        obtain ⟨rfl, rfl⟩ := List.cons.inj h
        exact .inr ⟨start, rest, rfl, hw⟩

private theorem number_sign_notMem {d : Directive} {cs : List Char} (h : IsWord d.word cs) :
    '#' ∉ cs := by
  obtain ⟨before, after, hb, ha, rfl⟩ := h
  have hblank : isBlank '#' = false := by decide
  simp only [List.mem_append, not_or]
  refine ⟨⟨fun hc => ?_, number_sign_notMem_word d⟩, fun hc => ?_⟩
  · simp [hb _ hc] at hblank
  · simp [ha _ hc] at hblank

private theorem rest_unique {start rest start' rest' : List Char} (hr : '#' ∉ rest) (hr' : '#' ∉ rest')
    (h : start ++ '#' :: rest = start' ++ '#' :: rest') : rest = rest' := by
  have hsplit : ∀ {middle a b : List Char}, '#' ∉ a → '#' :: a = middle ++ '#' :: b → a = b := by
    intro middle a b ha hm
    cases middle with
    | nil => exact (List.cons.inj hm).2
    | cons c middle =>
      rw [(List.cons.inj hm).2] at ha
      simp at ha
  rcases List.append_eq_append_iff.mp h with ⟨middle, -, hm⟩ | ⟨middle, -, hm⟩
  · exact hsplit hr hm
  · exact (hsplit hr' hm).symm

/-- No comment has the form of two directives. -/
theorem matches_unique {d d' : Directive} {cs : List Char} (h : d.Matches cs) (h' : d'.Matches cs) :
    d = d' := by
  obtain ⟨start, rest, rfl, hw, -⟩ := h
  obtain ⟨start', rest', heq, hw', -⟩ := h'
  obtain rfl := rest_unique (number_sign_notMem hw) (number_sign_notMem hw') heq
  apply word_injective
  have := (trim_eq_word_iff.mpr hw).symm.trans (trim_eq_word_iff.mpr hw')
  exact String.toList_injective this

/-- A comment asks for a directive just if it has its form. -/
theorem ofComment?_eq_some_iff {d : Directive} {cs : List Char} :
    ofComment? cs = some d ↔ d.Matches cs := by
  have hwhole : ∀ {e : Directive}, isWholeComment e.word cs = true → e.Matches cs := by
    intro e h
    obtain ⟨start, rest, hc, hw, hs⟩ := isWholeComment_iff.mp h
    exact ⟨start, rest, hc, hw, .inr hs⟩
  have hthis : endsComment thisLine.word cs = true → Matches .thisLine cs := by
    intro h
    obtain ⟨start, rest, hc, hw⟩ := endsComment_iff.mp h
    exact ⟨start, rest, hc, hw, .inl rfl⟩
  have hsome : ∀ {e : Directive}, ofComment? cs = some e → e.Matches cs := by
    intro e h
    rw [ofComment?] at h
    split_ifs at h with h₁ h₂ h₃ h₄ h₅ <;> obtain rfl := Option.some.inj h
    · exact hwhole h₁
    · exact hthis h₂
    · exact hwhole h₃
    · exact hwhole h₄
    · exact hwhole h₅
  refine ⟨hsome, fun h => ?_⟩
  cases ho : ofComment? cs with
  | some e => rw [matches_unique (hsome ho) h]
  | none =>
    rw [ofComment?] at ho
    split_ifs at ho with h₁ h₂ h₃ h₄ h₅
    obtain ⟨start, rest, hc, hw, hs⟩ := h
    have hends : endsComment d.word cs = true := endsComment_iff.mpr ⟨start, rest, hc, hw⟩
    have hstart : d ≠ .thisLine → isWholeComment d.word cs = true :=
      fun hd => isWholeComment_iff.mpr ⟨start, rest, hc, hw, hs.resolve_left hd⟩
    cases d with
    | wholeFile => exact absurd (hstart (by simp)) h₁
    | thisLine => exact absurd hends h₂
    | nextLine => exact absurd (hstart (by simp)) h₃
    | rangeStart => exact absurd (hstart (by simp)) h₄
    | rangeEnd => exact absurd (hstart (by simp)) h₅

instance (d : Directive) (cs : List Char) : Decidable (d.Matches cs) :=
  decidable_of_iff _ ofComment?_eq_some_iff

end Directive

end

open Yaml

namespace Suppression

def Comment.asks (c : Comment) (d : Directive) : Bool := d.Matches c.text

/-- The comments after the last one that ends a range. -/
def sinceEnd (cs : List Comment) : List Comment :=
  (cs.reverse.takeWhile fun c => !c.asks .rangeEnd).reverse

/-- The comment that opened the range that is open after some comments: the first start since the last
end. -/
def opening? (cs : List Comment) : Option Comment :=
  (sinceEnd cs).find? (·.asks .rangeStart)

/-- A range is open after some comments. -/
def isOpen (cs : List Comment) : Bool := (opening? cs).isSome

def inContext (cs : List Comment) : List (List Comment × Comment) := cs.inits.zip cs

def closed? (x : List Comment × Comment) : Option LineRange :=
  if x.2.asks .rangeEnd then (opening? x.1).map fun first => ⟨first.line, x.2.line⟩ else none

/-- The comment is a start while a range is open. -/
def isNested (x : List Comment × Comment) : Bool := x.2.asks .rangeStart && isOpen x.1

/-- The comment is an end while no range is open. -/
def isUnmatched (x : List Comment × Comment) : Bool := x.2.asks .rangeEnd && !isOpen x.1

def complaint? (x : List Comment × Comment) : Option Diagnostic :=
  if isNested x then some x.2.nestedStart
  else if isUnmatched x then some x.2.unmatchedEnd
  else none

/-- The findings about comments: those about single ones, and at last the one about a range that stays
open. -/
def complaints (cs : List Comment) : List Diagnostic :=
  (inContext cs).filterMap complaint? ++ (opening? cs).toList.map fun c => unclosedStart c.line

/-- The first comment opens a range that the last one closes. -/
def Encloses (cs : List Comment) (first last : Comment) : Prop :=
  ∃ before after, cs = before ++ last :: after ∧ last.asks .rangeEnd ∧ opening? before = some first

/-- The comments ask to hide what starts on a line. -/
def Hidden (cs : List Comment) (line : Nat) : Prop :=
  (∃ c ∈ cs, c.asks .wholeFile) ∨
    (∃ c ∈ cs, c.asks .thisLine ∧ c.line = line) ∨
    (∃ c ∈ cs, c.asks .nextLine ∧ c.line + 1 = line) ∨
    ∃ first last, Encloses cs first last ∧ first.line ≤ line ∧ line ≤ last.line

theorem opening?_concat (cs : List Comment) (c : Comment) :
    opening? (cs ++ [c]) = if c.asks .rangeEnd then none
      else (opening? cs).or (if c.asks .rangeStart then some c else none) := by
  by_cases he : c.asks .rangeEnd = true
  · simp [opening?, sinceEnd, he]
  · by_cases hs : c.asks .rangeStart = true
    · simp [opening?, sinceEnd, he, hs, List.find?_append]
    · simp [opening?, sinceEnd, he, hs, List.find?_append]

private theorem zip_inits_concat (cs : List Comment) (c : Comment) :
    cs.inits.zip (cs ++ [c]) = cs.inits.zip cs ++ [(cs, c)] := by
  induction cs with
  | nil => rfl
  | cons d cs ih =>
    simp only [List.inits_cons, List.cons_append, List.zip_cons_cons, List.zip_map_left, ih,
      List.map_append, List.map_cons, List.map_nil, Prod.map, id]

theorem inContext_concat (cs : List Comment) (c : Comment) :
    inContext (cs ++ [c]) = inContext cs ++ [(cs, c)] := by
  have hinits : (cs ++ [c]).inits = cs.inits ++ [cs ++ [c]] := by simp [List.inits_append]
  rw [inContext, hinits, ← List.append_nil (cs ++ [c]), List.zip_append (by simp),
    zip_inits_concat, inContext]
  simp

private theorem mem_insertLine {line other : Nat} {lines : List Nat} :
    other ∈ insertLine line lines ↔ other ∈ lines ∨ line = other := by
  induction lines with
  | nil => simp [insertLine, eq_comm]
  | cons first lines ih =>
    rw [insertLine]
    split
    · simp only [List.mem_cons]
      tauto
    · split
      · rename_i h
        simp only [List.mem_cons, h]
        tauto
      · simp only [List.mem_cons, ih, or_assoc]

private theorem asks_eq {c : Comment} {d : Directive} (h : Directive.ofComment? c.text = some d)
    (e : Directive) : c.asks e = decide (d = e) := by
  rw [Comment.asks, decide_eq_decide, ← Directive.ofComment?_eq_some_iff, h, Option.some.injEq]

private theorem asks_eq_false {c : Comment} (h : Directive.ofComment? c.text = none) (e : Directive) :
    c.asks e = false := by
  rw [Comment.asks, decide_eq_false_iff_not, ← Directive.ofComment?_eq_some_iff, h]
  exact Option.some_ne_none e |>.symm

section

variable (s : Scan) (c : Comment)

private theorem fileWide_comment : (s.comment c).found.fileWide = (s.found.fileWide || c.asks .wholeFile) := by
  rw [Scan.comment]
  cases hc : Directive.ofComment? c.text with
  | none => simp [asks_eq_false hc]
  | some d =>
    have hasks := asks_eq hc
    cases d <;> cases s.openLine <;> simp [hasks]

private theorem mem_lines_comment {line : Nat} : line ∈ (s.comment c).found.lines ↔ line ∈ s.found.lines ∨
    (c.asks .thisLine ∧ c.line = line) ∨ (c.asks .nextLine ∧ c.line + 1 = line) := by
  rw [Scan.comment]
  cases hc : Directive.ofComment? c.text with
  | none => simp [asks_eq_false hc]
  | some d =>
    have hasks := asks_eq hc
    cases d <;> cases s.openLine <;> simp [hasks, mem_insertLine]

private theorem ranges_comment : (s.comment c).found.ranges = s.found.ranges ++
    (if c.asks .rangeEnd then s.openLine.map fun first => ⟨first, c.line⟩ else none).toList := by
  rw [Scan.comment]
  cases hc : Directive.ofComment? c.text with
  | none => simp [asks_eq_false hc]
  | some d =>
    have hasks := asks_eq hc
    cases d <;> cases s.openLine <;> simp [hasks]

private theorem openLine_comment : (s.comment c).openLine = if c.asks .rangeEnd then none
    else s.openLine.or (if c.asks .rangeStart then some c.line else none) := by
  rw [Scan.comment]
  cases hc : Directive.ofComment? c.text with
  | none => simp [asks_eq_false hc]
  | some d =>
    have hasks := asks_eq hc
    cases d <;> cases s.openLine <;> simp [hasks]

private theorem findings_comment : (s.comment c).findings = s.findings ++
    if c.asks .rangeStart && s.openLine.isSome then [c.nestedStart]
    else if c.asks .rangeEnd && s.openLine.isNone then [c.unmatchedEnd]
    else [] := by
  rw [Scan.comment]
  cases hc : Directive.ofComment? c.text with
  | none => simp [asks_eq_false hc]
  | some d =>
    have hasks := asks_eq hc
    cases d <;> cases s.openLine <;> simp [hasks]

end

/-- What is known of a scan after some comments. -/
structure Scanned (cs : List Comment) (s : Scan) : Prop where
  fileWide : s.found.fileWide = cs.any (·.asks .wholeFile)
  lines : ∀ line, line ∈ s.found.lines ↔ ∃ c ∈ cs,
    (c.asks .thisLine ∧ c.line = line) ∨ (c.asks .nextLine ∧ c.line + 1 = line)
  ranges : s.found.ranges = (inContext cs).filterMap closed?
  openLine : s.openLine = (opening? cs).map Comment.line
  findings : s.findings = (inContext cs).filterMap complaint?

private theorem Scanned.comment {cs : List Comment} {s : Scan} (h : Scanned cs s) (c : Comment) :
    Scanned (cs ++ [c]) (s.comment c) where
  fileWide := by simp [fileWide_comment, h.fileWide]
  lines line := by simp [mem_lines_comment, h.lines, or_and_right, exists_or]
  ranges := by
    have hclosed : closed? (cs, c) =
        if c.asks .rangeEnd then s.openLine.map fun first => ⟨first, c.line⟩ else none := by
      rw [closed?, h.openLine, Option.map_map]
      rfl
    rw [ranges_comment, h.ranges, inContext_concat, List.filterMap_append, ← hclosed]
    cases hr : closed? (cs, c) <;> simp [hr]
  openLine := by
    rw [openLine_comment, opening?_concat, h.openLine]
    split
    · rfl
    · cases opening? cs with
      | none => split <;> rfl
      | some first => rfl
  findings := by
    have hopen : s.openLine.isSome = isOpen cs := by rw [h.openLine, Option.isSome_map, isOpen]
    have hcomplaint : (complaint? (cs, c)).toList =
        if c.asks .rangeStart && s.openLine.isSome then [c.nestedStart]
        else if c.asks .rangeEnd && s.openLine.isNone then [c.unmatchedEnd]
        else [] := by
      rw [complaint?, isNested, isUnmatched, hopen, ← Option.not_isSome, hopen]
      split
      · rfl
      · split <;> rfl
    rw [findings_comment, h.findings, inContext_concat, List.filterMap_append, ← hcomplaint]
    cases hf : complaint? (cs, c) <;> simp [hf]

/-- The scan knows what the comments say. -/
theorem scanned (cs : List Comment) : Scanned cs (cs.foldl Scan.comment {}) := by
  induction cs using List.reverseRecOn with
  | nil =>
    refine ⟨rfl, fun line => ?_, rfl, rfl, rfl⟩
    simp
  | append_singleton cs c ih =>
    rw [List.foldl_append]
    exact ih.comment c

private theorem mem_inContext {cs before : List Comment} {c : Comment} :
    (before, c) ∈ inContext cs ↔ ∃ after, cs = before ++ c :: after := by
  induction cs using List.reverseRecOn with
  | nil => simp [inContext]
  | append_singleton cs d ih =>
    rw [inContext_concat, List.mem_append, ih, List.mem_singleton, Prod.mk.injEq]
    constructor
    · rintro (⟨after, rfl⟩ | ⟨rfl, rfl⟩)
      · exact ⟨after ++ [d], by simp⟩
      · exact ⟨[], rfl⟩
    · rintro ⟨after, h⟩
      rcases List.eq_nil_or_concat after with rfl | ⟨after, e, rfl⟩
      · obtain ⟨rfl, hd⟩ := List.append_inj' h rfl
        exact .inr ⟨rfl, (List.cons.inj hd).1.symm⟩
      · have h' : cs ++ [d] = (before ++ c :: after) ++ [e] := by simpa using h
        exact .inl ⟨after, (List.append_inj' h' rfl).1⟩

theorem mem_closed {cs : List Comment} {r : LineRange} :
    r ∈ (inContext cs).filterMap closed? ↔
      ∃ first last, Encloses cs first last ∧ r = ⟨first.line, last.line⟩ := by
  rw [List.mem_filterMap]
  constructor
  · rintro ⟨⟨before, last⟩, hx, hr⟩
    obtain ⟨after, rfl⟩ := mem_inContext.mp hx
    obtain ⟨he, hr⟩ := Option.ite_none_right_eq_some.mp hr
    obtain ⟨first, hfirst, rfl⟩ := Option.map_eq_some_iff.mp hr
    exact ⟨first, last, ⟨before, after, rfl, he, hfirst⟩, rfl⟩
  · rintro ⟨first, last, ⟨before, after, hcs, he, hfirst⟩, rfl⟩
    refine ⟨(before, last), mem_inContext.mpr ⟨after, hcs⟩, ?_⟩
    simp [closed?, he, hfirst]

/-- The scan hides what the comments ask to hide. -/
theorem hidesLine_iff (cs : List Comment) (line : Nat) :
    (cs.foldl Scan.comment {}).found.hidesLine line = true ↔ Hidden cs line := by
  have h := scanned cs
  rw [hidesLine, Bool.or_eq_true, Bool.or_eq_true, Hidden, h.fileWide, List.contains_iff_mem, h.lines,
    List.any_eq_true, List.any_eq_true, h.ranges]
  have hranges : (∃ r ∈ (inContext cs).filterMap closed?, r.contains line = true) ↔
      ∃ first last, Encloses cs first last ∧ first.line ≤ line ∧ line ≤ last.line := by
    constructor
    · rintro ⟨r, hr, hline⟩
      obtain ⟨first, last, hpair, rfl⟩ := mem_closed.mp hr
      exact ⟨first, last, hpair, by simpa [LineRange.contains] using hline⟩
    · rintro ⟨first, last, hpair, hline⟩
      exact ⟨_, mem_closed.mpr ⟨first, last, hpair, rfl⟩, by simpa [LineRange.contains] using hline⟩
  rw [hranges]
  simp only [and_or_left, exists_or, or_assoc]

instance (cs : List Comment) (line : Nat) : Decidable (Hidden cs line) :=
  decidable_of_iff _ (hidesLine_iff cs line)

private theorem asks_unique {c : Comment} {d e : Directive} (h : c.asks d = true) (h' : c.asks e = true) :
    d = e :=
  Directive.matches_unique (of_decide_eq_true h) (of_decide_eq_true h')

theorem opening?_mem {cs : List Comment} {c : Comment} (h : opening? cs = some c) : c ∈ cs := by
  have := List.mem_of_find?_eq_some h
  rw [sinceEnd, List.mem_reverse] at this
  exact List.mem_reverse.mp ((List.takeWhile_prefix _).subset this)

/-- A start is closed, or nested, or stays open. -/
theorem countP_rangeStart (cs : List Comment) : cs.countP (·.asks .rangeStart) =
    ((inContext cs).filterMap closed?).length + (inContext cs).countP isNested +
      (opening? cs).toList.length := by
  induction cs using List.reverseRecOn with
  | nil => rfl
  | append_singleton cs c ih =>
    have hexcl : c.asks .rangeStart = true → c.asks .rangeEnd = false := by
      intro hs
      by_contra he
      cases asks_unique hs (by simpa using he)
    rw [List.countP_append, ih, inContext_concat, opening?_concat]
    cases ho : opening? cs <;> cases hs : c.asks .rangeStart <;> cases he : c.asks .rangeEnd <;>
      simp [closed?, isNested, isOpen, ho, hs, he] at hexcl ⊢ <;> omega

/-- An end closes a range or is unmatched. -/
theorem countP_rangeEnd (cs : List Comment) : cs.countP (·.asks .rangeEnd) =
    ((inContext cs).filterMap closed?).length + (inContext cs).countP isUnmatched := by
  induction cs using List.reverseRecOn with
  | nil => rfl
  | append_singleton cs c ih =>
    rw [List.countP_append, ih, inContext_concat]
    cases ho : opening? cs <;> cases he : c.asks .rangeEnd <;>
      simp [closed?, isUnmatched, isOpen, ho, he] <;> omega

private theorem isUnmatched_eq_false {x : List Comment × Comment} (h : isNested x = true) :
    isUnmatched x = false := by
  rw [isNested, Bool.and_eq_true] at h
  rw [isUnmatched, h.2, Bool.not_true, Bool.and_false]

private theorem filter_complaint_nested (xs : List (List Comment × Comment)) :
    (xs.filterMap complaint?).filter (·.code = some .nestedIgnore) =
      (xs.filter isNested).map (·.2.nestedStart) := by
  induction xs with
  | nil => rfl
  | cons x xs ih =>
    cases hn : isNested x <;> cases hu : isUnmatched x <;>
      simp [complaint?, hn, hu, ih, Comment.nestedStart, Comment.unmatchedEnd, Diagnostic.error]

private theorem filter_complaint_unmatched (xs : List (List Comment × Comment)) :
    (xs.filterMap complaint?).filter (·.code = some .unmatchedIgnoreEnd) =
      (xs.filter isUnmatched).map (·.2.unmatchedEnd) := by
  induction xs with
  | nil => rfl
  | cons x xs ih =>
    cases hn : isNested x with
    | true =>
      simp [complaint?, hn, isUnmatched_eq_false hn, ih, Comment.nestedStart, Diagnostic.error]
    | false =>
      cases hu : isUnmatched x <;>
        simp [complaint?, hn, hu, ih, Comment.unmatchedEnd, Diagnostic.error]

private theorem filter_complaint_unclosed (xs : List (List Comment × Comment)) :
    (xs.filterMap complaint?).filter (·.code = some .unclosedIgnore) = [] := by
  induction xs with
  | nil => rfl
  | cons x xs ih =>
    cases hn : isNested x <;> cases hu : isUnmatched x <;>
      simp [complaint?, hn, hu, ih, Comment.nestedStart, Comment.unmatchedEnd, Diagnostic.error]

/-- The findings about nested starts are about the starts that follow while a range is open. -/
theorem filter_nestedIgnore (cs : List Comment) :
    (complaints cs).filter (·.code = some .nestedIgnore) =
      ((inContext cs).filter isNested).map (·.2.nestedStart) := by
  rw [complaints, List.filter_append, filter_complaint_nested]
  cases opening? cs <;> simp [unclosedStart, Diagnostic.error]

/-- The findings about unmatched ends are about the ends that follow while no range is open. -/
theorem filter_unmatchedIgnoreEnd (cs : List Comment) :
    (complaints cs).filter (·.code = some .unmatchedIgnoreEnd) =
      ((inContext cs).filter isUnmatched).map (·.2.unmatchedEnd) := by
  rw [complaints, List.filter_append, filter_complaint_unmatched]
  cases opening? cs <;> simp [unclosedStart, Diagnostic.error]

/-- One start at most is found to be unclosed: the one whose range is open at the end. -/
theorem filter_unclosedIgnore (cs : List Comment) :
    (complaints cs).filter (·.code = some .unclosedIgnore) =
      (opening? cs).toList.map fun c => unclosedStart c.line := by
  rw [complaints, List.filter_append, filter_complaint_unclosed]
  cases opening? cs <;> simp [unclosedStart, Diagnostic.error]

abbrev Descending (cs : List Comment) : Prop := (cs.map Comment.line).Pairwise (· < ·)

/-- Ranges that the comments so far have closed. The next range opens behind them. -/
structure InOrder (cs : List Comment) (ranges : List LineRange) : Prop where
  sound : ∀ r ∈ ranges, r.first ≤ r.last
  apart : ranges.Pairwise fun r r' => r.last < r'.first
  closed : ∀ r ∈ ranges, ∃ c ∈ cs, r.last = c.line
  behind : ∀ c, opening? cs = some c → ∀ r ∈ ranges, r.last < c.line

private theorem InOrder.comment {cs : List Comment} {c : Comment}
    (h : InOrder cs ((inContext cs).filterMap closed?)) (hbelow : ∀ d ∈ cs, d.line < c.line) :
    InOrder (cs ++ [c]) ((inContext (cs ++ [c])).filterMap closed?) := by
  have hclosed : ∀ r ∈ (inContext cs).filterMap closed?, ∃ d ∈ cs ++ [c], r.last = d.line := by
    intro r hr
    obtain ⟨d, hd, hlast⟩ := h.closed r hr
    exact ⟨d, List.mem_append_left _ hd, hlast⟩
  rw [inContext_concat, List.filterMap_append]
  cases hr : closed? (cs, c) with
  | none =>
    simp only [List.filterMap_cons, hr, List.filterMap_nil, List.append_nil]
    refine ⟨h.sound, h.apart, hclosed, fun d hd r hmem => ?_⟩
    rw [opening?_concat] at hd
    obtain ⟨-, hd⟩ := Option.ite_none_left_eq_some.mp hd
    rcases Option.or_eq_some_iff.mp hd with hd | ⟨-, hd⟩
    · exact h.behind d hd r hmem
    · obtain ⟨-, hd⟩ := Option.ite_none_right_eq_some.mp hd
      obtain rfl := Option.some.inj hd
      obtain ⟨e, he, hlast⟩ := h.closed r hmem
      exact hlast ▸ hbelow e he
  | some last =>
    obtain ⟨he, hopen⟩ := Option.ite_none_right_eq_some.mp hr
    obtain ⟨first, hfirst, rfl⟩ := Option.map_eq_some_iff.mp hopen
    simp only [List.filterMap_cons, hr, List.filterMap_nil]
    refine ⟨?_, ?_, ?_, ?_⟩
    · intro r hmem
      rcases List.mem_append.mp hmem with hmem | hmem
      · exact h.sound r hmem
      · obtain rfl := List.mem_singleton.mp hmem
        exact (hbelow first (opening?_mem hfirst)).le
    · refine List.pairwise_append.mpr ⟨h.apart, List.pairwise_singleton _ _, fun r hmem r' hmem' => ?_⟩
      obtain rfl := List.mem_singleton.mp hmem'
      exact h.behind first hfirst r hmem
    · intro r hmem
      rcases List.mem_append.mp hmem with hmem | hmem
      · exact hclosed r hmem
      · obtain rfl := List.mem_singleton.mp hmem
        exact ⟨c, by simp, rfl⟩
    · intro d hd
      rw [opening?_concat, if_pos he] at hd
      cases hd

private theorem inOrder {cs : List Comment} (h : Descending cs) :
    InOrder cs ((inContext cs).filterMap closed?) := by
  induction cs using List.reverseRecOn with
  | nil => exact ⟨nofun, .nil, nofun, nofun⟩
  | append_singleton cs c ih =>
    rw [Descending, List.map_append, List.pairwise_append] at h
    refine (ih h.1).comment fun d hd => ?_
    exact h.2.2 d.line (List.mem_map_of_mem hd) c.line (by simp)

/-- What comments hide and what is found about them, as the comments themselves say it. -/
structure Faithful (cs : List Comment) (s : Suppression) (findings : List Diagnostic) : Prop where
  /-- Each start is closed, or nested, or left open. -/
  starts : cs.countP (·.asks .rangeStart) = s.ranges.length +
    findings.countP (·.code = some .nestedIgnore) + findings.countP (·.code = some .unclosedIgnore)
  /-- Each end closes a range or is unmatched. -/
  ends : cs.countP (·.asks .rangeEnd) =
    s.ranges.length + findings.countP (·.code = some .unmatchedIgnoreEnd)
  nested : findings.filter (·.code = some .nestedIgnore) =
    ((inContext cs).filter isNested).map (·.2.nestedStart)
  unmatched : findings.filter (·.code = some .unmatchedIgnoreEnd) =
    ((inContext cs).filter isUnmatched).map (·.2.unmatchedEnd)
  unclosed : findings.filter (·.code = some .unclosedIgnore) =
    (opening? cs).toList.map fun c => unclosedStart c.line
  findings : findings = complaints cs
  /-- The ranges are those from a start to the end that closes it. -/
  pairs : ∀ r, r ∈ s.ranges ↔ ∃ first last, Encloses cs first last ∧ r = ⟨first.line, last.line⟩
  sound : ∀ r ∈ s.ranges, r.first ≤ r.last
  apart : s.ranges.Pairwise fun r r' => r.last < r'.first
  kept : ∀ ds : List Diagnostic,
    s.filter ds = ds.filter fun d => decide (¬Hidden cs d.range.start.line)

private theorem faithful {cs : List Comment} (h : Descending cs) :
    Faithful cs (cs.foldl Scan.comment {}).finish.1 (cs.foldl Scan.comment {}).finish.2 := by
  have hscan := scanned cs
  have hfindings : (cs.foldl Scan.comment {}).finish.2 = complaints cs := by
    rw [Scan.finish, hscan.findings, hscan.openLine, complaints]
    cases opening? cs <;> rfl
  have hranges : (cs.foldl Scan.comment {}).finish.1.ranges = (inContext cs).filterMap closed? :=
    hscan.ranges
  rw [hfindings]
  refine ⟨?_, ?_, filter_nestedIgnore cs, filter_unmatchedIgnoreEnd cs, filter_unclosedIgnore cs, rfl,
    ?_, ?_, ?_, fun ds => ?_⟩
  · simp only [List.countP_eq_length_filter (l := complaints cs)]
    rw [filter_nestedIgnore, filter_unclosedIgnore, countP_rangeStart, hranges,
      List.countP_eq_length_filter, List.length_map, List.length_map]
  · rw [List.countP_eq_length_filter (l := complaints cs), filter_unmatchedIgnoreEnd, countP_rangeEnd,
      hranges, List.countP_eq_length_filter, List.length_map]
  · rw [hranges]
    exact fun r => mem_closed
  · rw [hranges]
    exact (inOrder h).sound
  · rw [hranges]
    exact (inOrder h).apart
  · refine List.filter_congr fun d _ => ?_
    rw [Bool.eq_iff_iff, decide_eq_true_iff, ← hidesLine_iff, Bool.not_eq_true', Bool.not_eq_true]
    rfl

/-- A configuration keeps what its comments hide, and the findings about them come last. -/
theorem suppression_of_ofTreeWith {nested : List Char → Except Endless Document} {t : Tree} {d : Document}
    (h : Read.ofTreeWith nested .config t = .ok d) :
    d.suppression = (ofTree t).1 ∧ (ofTree t).2 <:+ d.diagnostics := by
  rw [Read.ofTreeWith] at h
  split at h
  · cases h
  · obtain rfl := Except.ok.inj h
    exact ⟨rfl, List.suffix_append _ _⟩

/-- The comments of a tree are taken in document order. What they hide and what is found about them is
what they say, and a document shows just those findings that they do not ask to hide. -/
theorem ofTree_faithful (t : Tree) (h : Descending (comments t)) :
    comments t = ((t.root.preorder.filter (·.kind = .comment)).map fun n => ⟨t.textOf n, n.range⟩) ∧
    Faithful (comments t) (ofTree t).1 (ofTree t).2 ∧
    ∀ nested d, Read.ofTreeWith nested .config t = .ok d →
      d.suppression = (ofTree t).1 ∧ (ofTree t).2 <:+ d.diagnostics ∧
      ∀ findings, ({ d with diagnostics := findings } : Document).visible =
        findings.filter fun x => decide (¬Hidden (comments t) x.range.start.line) := by
  have hfaithful := faithful h
  refine ⟨?_, hfaithful, fun nested d hd => ?_⟩
  · rw [comments, ← Cursor.map_node_places, List.filter_map, List.map_map]
    rfl
  · obtain ⟨hs, hfindings⟩ := suppression_of_ofTreeWith hd
    refine ⟨hs, hfindings, fun findings => ?_⟩
    rw [Document.visible, hs]
    exact hfaithful.kept findings

/-- The tree of a text with a start, an end and a further start, which no end follows. -/
def startEndStart : Tree where
  source := "# cci-ignore-start\n# cci-ignore-end\n# cci-ignore-start\n".toList
  root :=
    { id := 0, kind := .stream, start := ⟨0, 0, 0⟩, stop := ⟨55, 3, 0⟩
      children := [
        { id := 1, kind := .comment, start := ⟨0, 0, 0⟩, stop := ⟨18, 0, 18⟩ },
        { id := 2, kind := .comment, start := ⟨19, 1, 0⟩, stop := ⟨35, 1, 16⟩ },
        { id := 3, kind := .comment, start := ⟨36, 2, 0⟩, stop := ⟨54, 2, 18⟩ }] }

/-- Line 1 is hidden, line 2 is not. -/
theorem faithful_startEndStart :
    Descending (comments startEndStart) ∧
    Faithful (comments startEndStart) ⟨false, [], [⟨0, 1⟩]⟩ [unclosedStart 2] ∧
    ∃ d, Read.ofTreeWith (fun _ => .error {}) .config startEndStart = .ok d ∧
      ∀ findings, ({ d with diagnostics := findings } : Document).visible =
        findings.filter fun x => decide (¬Hidden (comments startEndStart) x.range.start.line) := by
  have h : Descending (comments startEndStart) := by decide
  have hd : ∃ d, Read.ofTreeWith (fun _ => .error {}) .config startEndStart = .ok d := ⟨_, rfl⟩
  obtain ⟨d, hd⟩ := hd
  have hfound : ofTree startEndStart = (⟨false, [], [⟨0, 1⟩]⟩, [unclosedStart 2]) := by decide
  obtain ⟨-, hfaithful, hvisible⟩ := ofTree_faithful startEndStart h
  rw [hfound] at hfaithful
  exact ⟨h, hfaithful, d, hd, (hvisible _ d hd).2.2⟩

end Suppression

end PipelineLint
