import PipelineLint.Concrete.Grammar.Stream
import PipelineLint.Proofs.Diagnostic.Edits
import PipelineLint.Proofs.Diagnostic.Suppression
import PipelineLint.Proofs.Yaml.Lies

/-! # What the fixes do that hide a finding

Each fix inserts directives, a line of its own before the finding's line or the end of it for one that stands there, and
leaves all other lines as they are. Whatever tree the text has then, where a directive is a comment of the tree it hides
the line that the finding has moved to. Two things are not as they are meant: the place for the end of a range does not
exist if the range ends on the last line, and inside of a scalar a directive is no comment (`ignoreActions_exact`,
`ignoreActions_fail`).
-/

namespace PipelineLint

open Text Yaml

/-- A number sign and the word of a directive. -/
def Directive.asComment (d : Directive) : String := "# " ++ d.word

/-- A comment that ends with a directive has its form, if the directive may stand there. -/
theorem Directive.matches_asComment (d : Directive) {start : List Char} (h : d = .thisLine ∨ Blanks start) :
    d.Matches (start ++ d.asComment.toList) := by
  have hcomment : d.asComment.toList = '#' :: ' ' :: d.word.toList := by
    rw [asComment, String.toList_append]
    rfl
  refine ⟨start, ' ' :: d.word.toList, by rw [hcomment], ⟨[' '], [], ?_, List.forall_mem_nil _, by simp⟩, h⟩
  simp [Blanks, isBlank]

private theorem Directive.feed_notMem_asComment (d : Directive) : '\n' ∉ d.asComment.toList := by
  cases d <;> decide

namespace Suppression

variable {t : Tree} {source front back indent : List Char} {line column n : Nat} {c first last : Comment} {cs : List Comment}

/-- A line is shown without carriage returns at its end. -/
theorem exists_lineAt_append {part : List Char} (h : (splitAtChar '\n' source)[n]? = some part) :
    ∃ tail, part = lineAt source n ++ tail ∧ ∀ c ∈ tail, c = '\r' := by
  induction source using lines_induction generalizing n with
  | last line hline =>
    rw [splitAtChar_of_notMem hline] at h
    cases n with
    | zero =>
      obtain rfl : line = part := by simpa using h
      refine ⟨[], ?_, List.forall_mem_nil _⟩
      rw [lineAt, lines_of_notMem hline]
      split <;> simp_all
    | succ n => simp at h
  | feed first rest hfirst ih =>
    rw [splitAtChar_append, splitAtChar_of_notMem hfirst] at h
    cases n with
    | zero =>
      obtain rfl : first = part := by simpa using h
      obtain ⟨tail, hreturn, htail⟩ := exists_dropReturn_append first
      refine ⟨tail, ?_, htail⟩
      rw [lineAt, lines_feed hfirst, List.getElem?_cons_zero, Option.getD_some, hreturn]
    | succ n =>
      obtain ⟨tail, hpart, htail⟩ := ih h
      refine ⟨tail, ?_, htail⟩
      rw [lineAt, lines_feed hfirst, List.getElem?_cons_succ]
      exact hpart

private theorem feed_notMem_lineAt (source : List Char) (n : Nat) : '\n' ∉ lineAt source n := by
  rw [lineAt]
  cases hline : (Text.lines source)[n]? with
  | none => simp
  | some line => exact notMem_of_mem_lines (List.mem_of_getElem? hline)

/-- The blank characters at the start of a line. -/
def indentAt (source : List Char) (n : Nat) : List Char := (lineAt source n).takeWhile isBlank

private theorem feed_notMem_indentAt (source : List Char) (n : Nat) : '\n' ∉ indentAt source n :=
  fun hmem => feed_notMem_lineAt source n ((List.takeWhile_prefix isBlank).subset hmem)

private theorem byteLength_returns {cs : List Char} (h : ∀ c ∈ cs, c = '\r') : byteLength cs = cs.length := by
  induction cs with
  | nil => rfl
  | cons c cs ih =>
    obtain ⟨rfl, hcs⟩ := List.forall_mem_cons.mp h
    rw [byteLength_cons, ih hcs, List.length_cons, Nat.add_comm]
    rfl

/-- A place in a line after all but carriage returns. -/
theorem exists_lineEnd {part : List Char} (h : (splitAtChar '\n' source)[n]? = some part)
    (hcolumn : column ≤ byteLength part) : ∃ front back, part = front ++ back ∧ (∀ c ∈ back, c = '\r') ∧
      byteLength front = max (byteLength (dropEndWhile (· == '\r') (lineAt source n))) column := by
  obtain ⟨tail, hpart, htail⟩ := exists_lineAt_append h
  obtain ⟨returns, hline, hreturns⟩ := exists_dropEndWhile_append (· == '\r') (lineAt source n)
  rw [← hline, List.append_assoc] at hpart
  have hall : ∀ c ∈ returns ++ tail, c = '\r' :=
    List.forall_mem_append.mpr ⟨fun c hc => beq_iff_eq.mp (hreturns c hc), htail⟩
  generalize returns ++ tail = returns at hpart hall
  generalize dropEndWhile (· == '\r') (lineAt source n) = content at hpart
  have htake (k : Nat) : byteLength (returns.take k) = min k returns.length := by
    rw [byteLength_returns fun c hc => hall c (List.mem_of_mem_take hc), List.length_take]
  refine ⟨content ++ returns.take (column - byteLength content), returns.drop (column - byteLength content), ?_,
    fun c hc => hall c (List.mem_of_mem_drop hc), ?_⟩
  · rw [List.append_assoc, List.take_append_drop, hpart]
  · rw [hpart, byteLength_append, byteLength_returns hall] at hcolumn
    rw [byteLength_append, htake]
    omega

/-- A tree has a directive in a line as a comment: a node of this kind that starts in the line, with the directive or
before it, and ends with the directive. -/
def HasDirective (t : Tree) (line column : Nat) (directive : String) : Prop :=
  ∃ n ∈ t.root.preorder, n.kind = .comment ∧ n.Lies t.source ∧ n.start.row = line ∧ n.start.column ≤ column ∧
    n.stop.position = ⟨line, column + byteLength directive.toList⟩

instance (t : Tree) (line column : Nat) (directive : String) : Decidable (HasDirective t line column directive) :=
  inferInstanceAs (Decidable (∃ n ∈ t.root.preorder, n.kind = .comment ∧ n.Lies t.source ∧ n.start.row = line ∧
    n.start.column ≤ column ∧ n.stop.position = ⟨line, column + byteLength directive.toList⟩))

theorem comments_eq (t : Tree) :
    comments t = (t.root.preorder.filter (·.kind = .comment)).map fun n => ⟨t.textOf n, n.range⟩ := by
  rw [comments, ← Cursor.map_node_places, List.filter_map, List.map_map]
  rfl

/-- Of two ways to take a text apart, the one may cut the middle part. -/
theorem exists_suffix_of_append_eq {start raw before front last : List Char}
    (h : start ++ raw = before ++ (front ++ last)) (hlow : byteLength before ≤ byteLength start)
    (hhigh : byteLength start ≤ byteLength (before ++ front)) : ∃ tail, tail <:+ front ∧ raw = tail ++ last := by
  rcases List.append_eq_append_iff.mp h with ⟨middle, rfl, rfl⟩ | ⟨middle, rfl, hmiddle⟩
  · rw [byteLength_append] at hlow
    obtain rfl := byteLength_eq_zero_iff.mp (by omega : byteLength middle = 0)
    exact ⟨front, List.suffix_refl front, rfl⟩
  · rcases List.append_eq_append_iff.mp hmiddle with ⟨rest, rfl, rfl⟩ | ⟨rest, rfl, rfl⟩
    · rw [byteLength_append, byteLength_append, byteLength_append] at hhigh
      obtain rfl := byteLength_eq_zero_iff.mp (by omega : byteLength rest = 0)
      exact ⟨[], List.nil_suffix, rfl⟩
    · exact ⟨rest, List.suffix_append _ _, rfl⟩

/-- A node that starts in a line, at the latest after a first part of it, and ends after a second one has the second
part as the end of its text. -/
theorem textOf_of_inLine {node : Node} (hnode : node.Lies t.source) {part rest : List Char}
    (hline : (splitAtChar '\n' t.source)[line]? = some (front ++ (part ++ rest))) (hrow : node.start.row = line)
    (hcolumn : node.start.column ≤ byteLength front)
    (hstop : node.stop.position = ⟨line, byteLength (front ++ part)⟩) :
    ∃ tail, tail <:+ front ∧ t.textOf node = tail ++ part := by
  obtain ⟨before, after, htext, hisLine, rfl⟩ := exists_isLine_of_getElem? hline
  obtain ⟨start, back, hplace, hfirst, hlast⟩ := hnode.exists_append
  rw [Tree.textOf]
  generalize Text.slice t.source node.start.offset node.stop.offset = raw at hplace hlast
  have hstartPosition : advance ⟨0, 0⟩ start = ⟨before.count '\n', node.start.column⟩ := by
    rw [← hrow]
    have hposition : node.start.position = advance ⟨0, 0⟩ start := by rw [hfirst, Mark.position_after]; rfl
    exact hposition.symm
  have hstopPosition : advance ⟨0, 0⟩ (start ++ raw) = ⟨before.count '\n', byteLength (front ++ part)⟩ := by
    rw [← hstop, hlast, Mark.position_after]
    rfl
  have hstart : byteLength start = byteLength before + node.start.column :=
    hisLine.byteLength_eq (by rw [byteLength_append]; omega) hstartPosition (hplace.symm.trans htext)
  have hwhole : byteLength (start ++ raw) = byteLength before + byteLength (front ++ part) := by
    have heq : (start ++ raw) ++ back = before ++ ((front ++ (part ++ rest)) ++ after) := by
      rw [List.append_assoc, ← hplace, htext]
    refine hisLine.byteLength_eq ?_ hstopPosition heq
    rw [byteLength_append, byteLength_append, byteLength_append]
    omega
  have hends : (start ++ raw) ++ back = (before ++ (front ++ part)) ++ (rest ++ after) := by
    rw [List.append_assoc, ← hplace, htext]
    simp
  rw [← byteLength_append] at hwhole
  refine exists_suffix_of_append_eq (append_inj_of_byteLength hends hwhole).1 ?_ ?_
  · omega
  · rw [byteLength_append]
    omega

/-- The text of a comment that ends with a directive. -/
theorem exists_comment {directive : String}
    (hline : (splitAtChar '\n' t.source)[line]? = some (front ++ (directive.toList ++ back)))
    (h : HasDirective t line (byteLength front) directive) : ∃ c ∈ comments t, c.line = line ∧
      ∃ tail, tail <:+ front ∧ c.text = tail ++ directive.toList := by
  obtain ⟨n, hn, hkind, hlies, hrow, hcolumn, hstop⟩ := h
  rw [← byteLength_append] at hstop
  refine ⟨⟨t.textOf n, n.range⟩, ?_, hrow, textOf_of_inLine hlies hline hrow hcolumn hstop⟩
  rw [comments_eq]
  exact List.mem_map_of_mem (List.mem_filter.mpr ⟨hn, decide_eq_true hkind⟩)

theorem hidesLine_ofTree (t : Tree) : (ofTree t).1.hidesLine line = true ↔ Hidden (comments t) line :=
  hidesLine_iff (comments t) line

/-- Without an end the range that is open stays, and else the first start opens one. -/
theorem opening?_append {before after : List Comment} (h : ∀ c ∈ after, c.asks .rangeEnd = false) :
    opening? (before ++ after) = (opening? before).or (after.find? (·.asks .rangeStart)) := by
  induction after using List.reverseRecOn with
  | nil => simp
  | append_singleton after c ih =>
    obtain ⟨hafter, hc⟩ := List.forall_mem_append.mp h
    have hend : c.asks .rangeEnd = false := hc c List.mem_cons_self
    rw [← List.append_assoc, opening?_concat, ih hafter, hend, List.find?_append, Option.or_assoc]
    cases hstart : c.asks .rangeStart <;> simp [hstart]

/-- After a start the next line is hidden if an end follows. -/
theorem hidden_of_start (hlines : Descending cs) (hfirst : first ∈ cs) (hlast : last ∈ cs)
    (hstart : first.asks .rangeStart = true) (hend : last.asks .rangeEnd = true) (hlt : first.line < last.line) :
    Hidden cs (first.line + 1) := by
  obtain ⟨before, rest, rfl⟩ := List.append_of_mem hfirst
  obtain ⟨-, hlater, hbefore⟩ := List.pairwise_append.mp (List.pairwise_map.mp hlines)
  have hrest := (List.pairwise_cons.mp hlater).1
  have hlater : last ∈ rest := by
    rcases List.mem_append.mp hlast with hlast | hlast
    · exact absurd (hbefore last hlast first List.mem_cons_self) (Nat.lt_asymm hlt)
    · rcases List.mem_cons.mp hlast with rfl | hlast
      · exact absurd hlt (Nat.lt_irrefl _)
      · exact hlast
  obtain ⟨stop, hstop⟩ : ∃ stop, rest.find? (·.asks .rangeEnd) = some stop :=
    Option.isSome_iff_exists.mp (List.find?_isSome.mpr ⟨last, hlater, hend⟩)
  obtain ⟨hstopEnd, between, after, rfl, hbetween⟩ := List.find?_eq_some_iff_append.mp hstop
  have hnone : ∀ c ∈ first :: between, c.asks .rangeEnd = false := by
    refine List.forall_mem_cons.mpr ⟨?_, fun c hc => by simpa using hbetween c hc⟩
    rw [Comment.asks, decide_eq_false_iff_not]
    intro hfirstEnd
    cases Directive.matches_unique (of_decide_eq_true hstart) hfirstEnd
  obtain ⟨opening, hopening, hle⟩ : ∃ opening, opening? (before ++ first :: between) = some opening ∧
      opening.line ≤ first.line := by
    have hfind : (first :: between).find? (·.asks .rangeStart) = some first := by simp [hstart]
    rw [opening?_append hnone, hfind]
    cases hopen : opening? before with
    | none => exact ⟨first, rfl, le_refl _⟩
    | some opening => exact ⟨opening, rfl, (hbefore opening (opening?_mem hopen) first List.mem_cons_self).le⟩
  refine .inr (.inr (.inr ⟨opening, stop, ⟨before ++ first :: between, after, by simp, hstopEnd, hopening⟩, ?_, ?_⟩))
  · exact Nat.le_succ_of_le hle
  · exact hrest stop (by simp)

theorem Comment.asks_of_text_eq {d : Directive} {start : List Char} (htext : c.text = start ++ d.asComment.toList)
    (h : d = .thisLine ∨ Blanks start) : c.asks d = true := by
  rw [Comment.asks, decide_eq_true_iff, htext]
  exact d.matches_asComment h

/-- The directive for the next line, on a line of its own. -/
theorem hidesLine_of_nextLine (hindent : Blanks indent)
    (hline : (splitAtChar '\n' t.source)[line]? = some (indent ++ Directive.nextLine.asComment.toList))
    (h : HasDirective t line (byteLength indent) Directive.nextLine.asComment) :
    (ofTree t).1.hidesLine (line + 1) = true := by
  rw [← List.append_nil Directive.nextLine.asComment.toList] at hline
  obtain ⟨c, hc, hplace, tail, htail, htext⟩ := exists_comment hline h
  have hasks := Comment.asks_of_text_eq htext (.inr fun x hx => hindent x (htail.subset hx))
  exact (hidesLine_ofTree _).mpr (.inr (.inr (.inl ⟨c, hc, hasks, congrArg (· + 1) hplace⟩)))

/-- The directive for its own line, behind other text. -/
theorem hidesLine_of_thisLine
    (hline : (splitAtChar '\n' t.source)[line]? = some (front ++ (Directive.thisLine.asComment.toList ++ back)))
    (h : HasDirective t line (byteLength front) Directive.thisLine.asComment) :
    (ofTree t).1.hidesLine line = true := by
  obtain ⟨c, hc, hplace, tail, -, htext⟩ := exists_comment hline h
  have hasks := Comment.asks_of_text_eq htext (.inl rfl)
  exact (hidesLine_ofTree _).mpr (.inr (.inl ⟨c, hc, hasks, hplace⟩))

/-- A start and an end, each on a line of its own. -/
theorem hidesLine_of_around {stop : Nat} (hindent : Blanks indent) (hlt : line < stop)
    (hfirst : (splitAtChar '\n' t.source)[line]? = some (indent ++ Directive.rangeStart.asComment.toList))
    (hlast : (splitAtChar '\n' t.source)[stop]? = some (indent ++ Directive.rangeEnd.asComment.toList))
    (hstart : HasDirective t line (byteLength indent) Directive.rangeStart.asComment)
    (hstop : HasDirective t stop (byteLength indent) Directive.rangeEnd.asComment)
    (hlines : Descending (comments t)) :
    (ofTree t).1.hidesLine (line + 1) = true := by
  rw [← List.append_nil Directive.rangeStart.asComment.toList] at hfirst
  rw [← List.append_nil Directive.rangeEnd.asComment.toList] at hlast
  obtain ⟨first, hmem, rfl, tail, htail, htext⟩ := exists_comment hfirst hstart
  obtain ⟨last, hmem', rfl, tail', htail', htext'⟩ := exists_comment hlast hstop
  have hasks := Comment.asks_of_text_eq htext (.inr fun x hx => hindent x (htail.subset hx))
  have hasks' := Comment.asks_of_text_eq htext' (.inr fun x hx => hindent x (htail'.subset hx))
  exact (hidesLine_ofTree _).mpr (hidden_of_start hlines hmem hmem' hasks hasks' hlt)

def ownLine (source : List Char) (n : Nat) (d : Directive) : String := String.ofList (indentAt source n) ++ d.asComment

/-- A fix puts the directive for the next line before the line of the finding. -/
structure PutsBefore (source : List Char) (range : Range) (a : Action) : Prop where
  placed : ∀ e ∈ a.edits, e.IsInsertion ∧ e.range.start.IsIn source
  made : ∃ text, a.textWith? source = some text ∧
    splitAtChar '\n' text =
      (splitAtChar '\n' source).insertIdx range.start.line (ownLine source range.start.line .nextLine).toList ∧
    ∀ t : Tree, t.source = text →
      HasDirective t range.start.line (byteLength (indentAt source range.start.line)) Directive.nextLine.asComment →
      (ofTree t).1.hidesLine (range.start.line + 1) = true

/-- A fix puts the directive for its own line at the end of the line of the finding, before carriage returns at most. -/
structure PutsInline (source : List Char) (range : Range) (a : Action) : Prop where
  placed : ∀ e ∈ a.edits, e.IsInsertion ∧ e.range.start.IsIn source
  made : ∃ front back text, (splitAtChar '\n' source)[range.start.line]? = some (front ++ back) ∧
    (∀ c ∈ back, c = '\r') ∧ a.textWith? source = some text ∧
    splitAtChar '\n' text = (splitAtChar '\n' source).set range.start.line
      (front ++ (' ' :: Directive.thisLine.asComment.toList ++ back)) ∧
    ∀ t : Tree, t.source = text →
      HasDirective t range.start.line (byteLength front + 1) Directive.thisLine.asComment →
      (ofTree t).1.hidesLine range.start.line = true

/-- A fix puts directives around the lines of the finding, which it can just if a line follows them. -/
structure PutsAround (source : List Char) (range : Range) (a : Action) : Prop where
  insertions : ∀ e ∈ a.edits, e.IsInsertion
  placed : (∀ e ∈ a.edits, e.range.start.IsIn source) ↔ range.stop.line < source.count '\n'
  unmade : source.count '\n' ≤ range.stop.line → a.textWith? source = none
  made : range.stop.line < source.count '\n' → ∃ text, a.textWith? source = some text ∧
    splitAtChar '\n' text =
      ((splitAtChar '\n' source).insertIdx (range.stop.line + 1)
        (ownLine source range.start.line .rangeEnd).toList).insertIdx range.start.line
          (ownLine source range.start.line .rangeStart).toList ∧
    ∀ t : Tree, t.source = text → Descending (comments t) →
      HasDirective t range.start.line (byteLength (indentAt source range.start.line)) Directive.rangeStart.asComment →
      HasDirective t (range.stop.line + 2) (byteLength (indentAt source range.start.line))
        Directive.rangeEnd.asComment →
      (ofTree t).1.hidesLine (range.start.line + 1) = true

theorem toList_ownLine (source : List Char) (n : Nat) (d : Directive) :
    (ownLine source n d).toList = indentAt source n ++ d.asComment.toList := by
  rw [ownLine, String.toList_append, String.toList_ofList]

theorem feed_notMem_ownLine (source : List Char) (n : Nat) (d : Directive) : '\n' ∉ (ownLine source n d).toList := by
  rw [toList_ownLine, List.mem_append, not_or]
  exact ⟨feed_notMem_indentAt source n, d.feed_notMem_asComment⟩

theorem isIn_lineStart {n : Nat} : (⟨n, 0⟩ : Position).IsIn source ↔ n ≤ source.count '\n' := by
  rw [Position.isIn_iff]
  constructor
  · rintro ⟨line, hline, -⟩
    obtain ⟨hlt, -⟩ := List.getElem?_eq_some_iff.mp hline
    rw [length_splitAtChar] at hlt
    exact Nat.le_of_lt_succ hlt
  · intro hn
    obtain ⟨line, hline⟩ := exists_line_of_le hn
    exact ⟨line, hline, Nat.zero_le _⟩

variable {range : Range}

private theorem putsBefore (hstart : range.start.line ≤ source.count '\n') (title : String) : PutsBefore source range
    (.replace title ⟨⟨range.start.line, 0⟩, ⟨range.start.line, 0⟩⟩
      (ownLine source range.start.line .nextLine ++ "\n")) where
  placed := by
    intro e he
    obtain rfl := List.mem_singleton.mp he
    exact ⟨rfl, isIn_lineStart.mpr hstart⟩
  made := by
    obtain ⟨text, htext, hparts⟩ := Edit.exists_textWith?_line hstart
      (feed_notMem_ownLine source range.start.line .nextLine)
    refine ⟨text, by rw [Action.textWith?_replace, htext], hparts, ?_⟩
    rintro t rfl hread
    refine hidesLine_of_nextLine (blanks_takeWhile _) ?_ hread
    rw [hparts, List.getElem?_insertIdx_self, toList_ownLine, length_splitAtChar, if_pos (Nat.le_succ_of_le hstart)]
    rfl

private theorem putsInline (hline : range.start.line ≤ source.count '\n')
    (hstop : ∃ part, (splitAtChar '\n' source)[range.start.line]? = some part ∧ range.stop.column ≤ byteLength part)
    {column : Nat}
    (hcolumn : column = max (byteLength (dropEndWhile (· == '\r') (lineAt source range.start.line))) range.stop.column)
    (title : String) : PutsInline source range
    (.replace title ⟨⟨range.start.line, column⟩, ⟨range.start.line, column⟩⟩ " # cci-ignore") := by
  obtain ⟨part, hpart, hle⟩ := hstop
  obtain ⟨front, back, rfl, hback, hfront⟩ := exists_lineEnd hpart hle
  obtain rfl : column = byteLength front := hcolumn.trans hfront.symm
  have hnew : " # cci-ignore".toList = ' ' :: Directive.thisLine.asComment.toList := by decide
  obtain ⟨text, htext, hparts⟩ := Edit.exists_textWith?_inLine hpart
    (show '\n' ∉ " # cci-ignore".toList by decide)
  constructor
  · intro e he
    obtain rfl := List.mem_singleton.mp he
    refine ⟨rfl, Position.isIn_iff.mpr ⟨_, hpart, ?_⟩⟩
    rw [byteLength_append]
    exact Nat.le_add_right _ _
  · refine ⟨front, back, text, hpart, hback, by rw [Action.textWith?_replace, htext], by rw [hparts, hnew], ?_⟩
    rintro t rfl hread
    have hread' : HasDirective t range.start.line (byteLength (front ++ [' '])) Directive.thisLine.asComment := by
      rwa [byteLength_append]
    have hplace : (splitAtChar '\n' t.source)[range.start.line]? =
        some ((front ++ [' ']) ++ (Directive.thisLine.asComment.toList ++ back)) := by
      rw [hparts, hnew, List.getElem?_set_self]
      · simp
      · rw [length_splitAtChar]
        exact Nat.lt_succ_of_le hline
    exact hidesLine_of_thisLine hplace hread'

private theorem putsAround (hlt : range.start.line ≤ range.stop.line) (hstart : range.start.line ≤ source.count '\n')
    (title : String) : PutsAround source range ⟨title,
      [⟨⟨⟨range.start.line, 0⟩, ⟨range.start.line, 0⟩⟩, ownLine source range.start.line .rangeStart ++ "\n"⟩,
       ⟨⟨⟨range.stop.line + 1, 0⟩, ⟨range.stop.line + 1, 0⟩⟩, ownLine source range.start.line .rangeEnd ++ "\n"⟩],
      false⟩ where
  insertions := by simp [Edit.IsInsertion]
  placed := by
    simp only [List.forall_mem_cons, isIn_lineStart, hstart, true_and, List.not_mem_nil, false_implies, implies_true,
      and_true]
    exact Nat.succ_le_iff
  unmade hlast := by
    have hnone : offsetOf? ⟨range.stop.line + 1, 0⟩ source = none :=
      offsetOf?_eq_none_iff.mpr (Nat.lt_succ_of_le hlast)
    rw [Action.textWith?_pair, Edit.textWith?_eq_none hnone, Option.bind_none]
  made hlast := by
    obtain ⟨middle, hmiddle, hmiddleParts⟩ := Edit.exists_textWith?_line (Nat.succ_le_of_lt hlast)
      (feed_notMem_ownLine source range.start.line .rangeEnd)
    have hlength : range.start.line ≤ middle.count '\n' := by
      have hcount := length_splitAtChar middle
      rw [hmiddleParts, List.length_insertIdx_of_le_length, length_splitAtChar] at hcount
      · omega
      · rw [length_splitAtChar]
        omega
    obtain ⟨text, htext, hparts⟩ := Edit.exists_textWith?_line hlength
      (feed_notMem_ownLine source range.start.line .rangeStart)
    have hfirst : (splitAtChar '\n' text)[range.start.line]? = some
        (indentAt source range.start.line ++ Directive.rangeStart.asComment.toList) := by
      rw [hparts, List.getElem?_insertIdx_self, length_splitAtChar, if_pos (Nat.le_succ_of_le hlength), toList_ownLine]
    have hend : (splitAtChar '\n' text)[range.stop.line + 2]? = some
        (indentAt source range.start.line ++ Directive.rangeEnd.asComment.toList) := by
      rw [hparts, List.getElem?_insertIdx_of_gt (by omega), hmiddleParts, Nat.add_sub_cancel (m := 1),
        List.getElem?_insertIdx_self, length_splitAtChar, if_pos (by omega), toList_ownLine]
    refine ⟨text, by rw [Action.textWith?_pair, hmiddle, Option.bind_some, htext], by rw [hparts, hmiddleParts], ?_⟩
    rintro t rfl hlines hreadStart hreadEnd
    exact hidesLine_of_around (blanks_takeWhile _) (by omega) hfirst hend hreadStart hreadEnd hlines

/-- A finding gets a fix that puts a directive before its line, and one that puts a directive at the end of its line or,
if it takes several lines, around them. -/
theorem ignoreActions_exact (source : List Char) (range : Range) (hstart : range.start.IsIn source)
    (hstop : range.stop.IsIn source) (hle : range.start ≤ range.stop) :
    ∃ first second, ignoreActions range source = [first, second] ∧ PutsBefore source range first ∧
      if range.isSingleLine then PutsInline source range second
      else range.stop.line < maxCoordinate → PutsAround source range second := by
  obtain ⟨part, hpart, -⟩ := Position.isIn_iff.mp hstart
  have hline : range.start.line ≤ source.count '\n' := by
    obtain ⟨hlt, -⟩ := List.getElem?_eq_some_iff.mp hpart
    rw [length_splitAtChar] at hlt
    exact Nat.le_of_lt_succ hlt
  have hlines : range.start.line ≤ range.stop.line := by
    rcases Position.le_def.mp hle with hlt | ⟨heq, -⟩
    · exact hlt.le
    · exact heq.le
  have hown (d : Directive) (text : String) (htext : text = d.asComment ++ "\n") :
      String.ofList ((lineAt source range.start.line).takeWhile isBlank) ++ text =
        ownLine source range.start.line d ++ "\n" := by
    rw [htext, ← String.append_assoc]
    rfl
  rw [ignoreActions]
  dsimp only
  rw [hown .nextLine _ (by rfl), hown .rangeStart _ (by rfl), hown .rangeEnd _ (by rfl)]
  split
  · next hsingle =>
    refine ⟨_, _, rfl, putsBefore hline _, ?_⟩
    have hsame : range.start.line = range.stop.line := of_decide_eq_true hsingle
    have hend := Position.isIn_iff.mp hstop
    rw [← hsame] at hend
    exact putsInline hline hend rfl _
  · next =>
    refine ⟨_, _, rfl, putsBefore hline _, fun hlast => ?_⟩
    rw [Nat.mod_eq_of_lt (Nat.succ_lt_succ hlast)]
    exact putsAround hlines hline _

/-- A finding at a pair can be hidden: its line moves down by one. -/
def pairSource : List Char := "jobs:\n  build: x\n".toList

theorem ignoreActions_exact_pair :
    (⟨1, 2⟩ : Position).IsIn pairSource ∧ (⟨1, 10⟩ : Position).IsIn pairSource ∧
      (⟨1, 2⟩ : Position) ≤ ⟨1, 10⟩ ∧
      ∃ first second text, ignoreActions ⟨⟨1, 2⟩, ⟨1, 10⟩⟩ pairSource = [first, second] ∧
        PutsBefore pairSource ⟨⟨1, 2⟩, ⟨1, 10⟩⟩ first ∧ PutsInline pairSource ⟨⟨1, 2⟩, ⟨1, 10⟩⟩ second ∧
        first.textWith? pairSource = some text ∧ (ofTree (Grammar.strict.tree text)).1.hidesLine 2 = true := by
  have hstart : (⟨1, 2⟩ : Position).IsIn pairSource := by decide
  have hstop : (⟨1, 10⟩ : Position).IsIn pairSource := by decide
  have hle : (⟨1, 2⟩ : Position) ≤ ⟨1, 10⟩ := by decide
  obtain ⟨first, second, hactions, hbefore, hinline⟩ :=
    ignoreActions_exact pairSource ⟨⟨1, 2⟩, ⟨1, 10⟩⟩ hstart hstop hle
  obtain ⟨text, htext, -, hhides⟩ := hbefore.made
  have hmade : (ignoreActions ⟨⟨1, 2⟩, ⟨1, 10⟩⟩ pairSource).head?.bind (·.textWith? pairSource) =
      some "jobs:\n  # cci-ignore-next-line\n  build: x\n".toList := by decide
  rw [hactions, List.head?_cons, Option.bind_some, htext, Option.some.injEq] at hmade
  refine ⟨hstart, hstop, hle, first, second, text, hactions, hbefore, hinline, htext, hhides _ rfl ?_⟩
  rw [hmade]
  decide +kernel

/-- A range up to the last line cannot be hidden, and inside of a literal a directive hides nothing. -/
theorem ignoreActions_fail :
    (let source := "jobs:\n  build:\n    docker: []\n".toList
     (⟨1, 2⟩ : Position).IsIn source ∧ (⟨3, 0⟩ : Position).IsIn source ∧
       ((ignoreActions ⟨⟨1, 2⟩, ⟨3, 0⟩⟩ source)[1]?.bind (·.textWith? source)) = none) ∧
      let source := "run: |\n  echo $A\n".toList
      (⟨1, 2⟩ : Position).IsIn source ∧ (⟨1, 9⟩ : Position).IsIn source ∧
        (((ignoreActions ⟨⟨1, 2⟩, ⟨1, 9⟩⟩ source)[0]?.bind (·.textWith? source)).map fun text =>
          (String.ofList text, (ofTree (Grammar.strict.tree text)).1.hidesLine 2)) =
            some ("run: |\n  # cci-ignore-next-line\n  echo $A\n", false) := by
  decide +kernel

end Suppression

end PipelineLint
