import PipelineLint.Proofs.Diagnostic.Fits
import PipelineLint.Proofs.Yaml.Numbering

/-! # Where the nodes of a tree lie

A grammar may read a text as it sees fit, but the nodes that it makes of the text lie in the text: their marks are marks
of the text, the first before the last (`Tree.LiesInText`). So the places that a view shows fit the text.
-/

namespace PipelineLint.Yaml

namespace Mark

variable {text : List Char} {m m' : Mark}

private theorem offset_next (m : Mark) (c : Char) : (m.next c).offset = m.offset + c.utf8Size := by
  rw [next]
  split
  · rename_i hc
    rw [hc]
    rfl
  · rfl

private theorem position_next (m : Mark) (c : Char) :
    (m.next c).position = if c = '\n' then ⟨m.row + 1, 0⟩ else ⟨m.row, m.column + c.utf8Size⟩ := by
  rw [next]
  split <;> rfl

theorem after_append (m : Mark) (xs ys : List Char) : m.after (xs ++ ys) = (m.after xs).after ys := List.foldl_append

theorem offset_after (m : Mark) (cs : List Char) : (m.after cs).offset = m.offset + Text.byteLength cs := by
  induction cs generalizing m with
  | nil => rfl
  | cons c cs ih =>
    have hcs : m.after (c :: cs) = (m.next c).after cs := rfl
    rw [hcs, ih, offset_next, Text.byteLength_cons, Nat.add_assoc]

theorem position_after (m : Mark) (cs : List Char) : (m.after cs).position = Text.advance m.position cs := by
  induction cs generalizing m with
  | nil => rfl
  | cons c cs ih =>
    have hcs : m.after (c :: cs) = (m.next c).after cs := rfl
    rw [hcs, ih, position_next, Text.advance]
    rfl

/-- The mark is one of a text: what stands before it is some first part of the text. -/
def IsIn (text : List Char) (m : Mark) : Prop := ∃ before after, text = before ++ after ∧ m = Mark.after {} before

def along (m : Mark) : List Char → List Mark
  | [] => [m]
  | c :: cs => m :: along (m.next c) cs

theorem mem_along_iff : m' ∈ m.along text ↔ ∃ before after, text = before ++ after ∧ m' = m.after before := by
  induction text generalizing m with
  | nil => simp [along, after]
  | cons c cs ih =>
    rw [along, List.mem_cons, ih]
    constructor
    · rintro (rfl | ⟨before, rest, rfl, rfl⟩)
      · exact ⟨[], c :: cs, rfl, rfl⟩
      · exact ⟨c :: before, rest, rfl, rfl⟩
    · rintro ⟨before, rest, hcs, rfl⟩
      rcases List.cons_eq_append_iff.mp hcs with ⟨rfl, rfl⟩ | ⟨before, rfl, rfl⟩
      · exact .inl rfl
      · exact .inr ⟨before, rest, rfl, rfl⟩

instance : Decidable (m.IsIn text) := decidable_of_iff _ mem_along_iff

/-- Two marks of a text are the ends of a part of it. -/
theorem IsIn.exists_between (h : m.IsIn text) (h' : m'.IsIn text) (hle : m.offset ≤ m'.offset) :
    ∃ before between after, text = before ++ (between ++ after) ∧ m = Mark.after {} before ∧
      m' = Mark.after {} (before ++ between) := by
  obtain ⟨before, rest, rfl, rfl⟩ := h
  obtain ⟨before', rest', happend, rfl⟩ := h'
  rcases List.append_eq_append_iff.mp happend with ⟨between, rfl, rfl⟩ | ⟨between, rfl, rfl⟩
  · exact ⟨before, between, rest', rfl, rfl, rfl⟩
  · rw [offset_after, offset_after, Text.byteLength_append] at hle
    obtain rfl := Text.byteLength_eq_zero_iff.mp (by omega : Text.byteLength between = 0)
    exact ⟨before', [], rest, by simp, by rw [List.append_nil], by rw [List.append_nil]⟩

/-- The marks of a text have the order of their positions. -/
theorem IsIn.position_le (h : m.IsIn text) (h' : m'.IsIn text) (hle : m.offset ≤ m'.offset) :
    m.position ≤ m'.position := by
  obtain ⟨before, between, after, -, rfl, rfl⟩ := h.exists_between h' hle
  rw [after_append, position_after _ between]
  exact Text.le_advance _ _

end Mark

structure Node.Lies (text : List Char) (n : Node) : Prop where
  start : n.start.IsIn text
  stop : n.stop.IsIn text
  forward : n.start.offset ≤ n.stop.offset

instance (text : List Char) (n : Node) : Decidable (n.Lies text) :=
  decidable_of_iff (n.start.IsIn text ∧ n.stop.IsIn text ∧ n.start.offset ≤ n.stop.offset)
    ⟨fun ⟨start, stop, forward⟩ => ⟨start, stop, forward⟩, fun h => ⟨h.start, h.stop, h.forward⟩⟩

/-- All nodes of a tree lie in its text. -/
def Tree.LiesInText (t : Tree) : Prop := ∀ n ∈ t.root.preorder, n.Lies t.source

instance (t : Tree) : Decidable t.LiesInText := inferInstanceAs (Decidable (∀ n ∈ t.root.preorder, n.Lies t.source))

theorem Mark.IsIn.row_le {text : List Char} {m : Mark} (h : m.IsIn text) : m.row ≤ Text.lastLine text := by
  obtain ⟨before, after, rfl, rfl⟩ := h
  have hrow : (Mark.after {} before).position.line = 0 + Text.lastLine before := by
    rw [Mark.position_after]
    exact Text.line_advance _ _
  have hle : (Mark.after {} before).position.line ≤ Text.lastLine (before ++ after) := by
    rw [hrow, Nat.zero_add, Text.lastLine_append]
    exact Nat.le_add_right _ _
  exact hle

/-- The text of a node stands between its marks. -/
theorem Node.Lies.exists_append {text : List Char} {n : Node} (h : n.Lies text) : ∃ before after,
    text = before ++ (Text.slice text n.start.offset n.stop.offset ++ after) ∧ n.start = Mark.after {} before ∧
      n.stop = Mark.after {} (before ++ Text.slice text n.start.offset n.stop.offset) := by
  obtain ⟨before, between, after, htext, hfirst, hlast⟩ := h.start.exists_between h.stop h.forward
  have hslice : Text.slice text n.start.offset n.stop.offset = between := by
    have hzero : ({} : Mark).offset = 0 := rfl
    rw [Text.slice, hfirst, hlast, Mark.offset_after, Mark.offset_after, Text.byteLength_append, hzero, Nat.zero_add,
      Nat.zero_add, htext, Text.slice?_append]
    rfl
  rw [hslice]
  exact ⟨before, after, htext, hfirst, hlast⟩

theorem Node.Lies.range_fits {text : List Char} {n : Node} (h : n.Lies text) : n.range.Fits (Text.lastLine text) where
  start := h.start.row_le
  stop := h.stop.row_le
  forward _ := h.start.position_le h.stop h.forward

namespace View

variable {v : View} {n m : Node} {last : Nat} {p : Pair} {i : Item}

/-- The places of all that a view reaches from a node on fit a text whose last line has a number. -/
def FitsFrom (v : View) (last : Nat) (n : Node) : Prop := ∀ m, v.Reaches n m → m.range.Fits last

theorem fitsFrom_of_liesInText {t : Tree} (ht : t.LiesInText) (hn : n ∈ t.root.preorder) :
    (View.ofTree t).FitsFrom (Text.lastLine t.source) n :=
  fun _ hm => (ht _ (mem_preorder_of_reaches hn hm)).range_fits

/-- The places of a pair fit, and those of all that its value reaches. -/
structure PairFits (v : View) (last : Nat) (p : Pair) : Prop where
  range : p.range.Fits last
  key : ∀ key ∈ p.key, key.range.Fits last
  rawValue : ∀ value ∈ p.rawValue, v.FitsFrom last value
  value : ∀ value ∈ p.value, v.FitsFrom last value

namespace PairFits

variable (h : v.PairFits last p)
include h

theorem keyRange : p.keyRange.Fits last := by
  rw [Pair.keyRange]
  cases hkey : p.key with
  | none => exact h.range
  | some key => exact h.key key hkey

theorem valueOrPairRange : p.valueOrPairRange.Fits last := by
  rw [Pair.valueOrPairRange, Pair.valueRange?]
  cases hvalue : p.rawValue with
  | none => exact h.range
  | some value => exact h.rawValue value hvalue value .refl

theorem openRange : p.openRange.Fits last := by
  rw [Pair.openRange]
  split
  · exact h.range
  · exact h.range.toLineEnd

end PairFits

/-- The place of an item fits, and those of all that its value reaches. -/
structure ItemFits (v : View) (last : Nat) (i : Item) : Prop where
  range : i.range.Fits last
  value : ∀ value ∈ i.value, v.FitsFrom last value

theorem ItemFits.markerRange (h : v.ItemFits last i) : i.markerRange.Fits last :=
  Range.fits_ofCoordinates h.range.start (Nat.le_succ _)

namespace FitsFrom

variable (h : v.FitsFrom last n)
include h

theorem range : n.range.Fits last := h n .refl

theorem later (hm : v.Reaches n m) : v.FitsFrom last m := fun k hk => h k (hm.trans hk)

theorem mapping (hm : v.mapping? n = some m) : v.FitsFrom last m := h.later (reaches_mapping? hm)

theorem pair (hp : v.pair? n = some p) : v.PairFits last p := by
  obtain rfl := node_of_pair? hp
  obtain ⟨-, hkey, -⟩ := fields_of_pair? hp
  refine ⟨h.range, fun key hmem => ?_, fun value hvalue => ?_, fun value hvalue => ?_⟩
  · exact h key (.single (.inl (List.mem_of_find?_eq_some (hkey.trans hmem))))
  · exact h.later (.single (holds_rawValue hp hvalue))
  · exact h.later (contains_value hp hvalue).to_reflTransGen

theorem pairs : ∀ p ∈ v.pairs n, v.PairFits last p := by
  intro p hp
  have hbelow := below_of_mem_pairs hp
  exact (h.later hbelow.node.to_reflTransGen).pair hbelow.eq

theorem items : ∀ i ∈ v.items n, v.ItemFits last i := by
  intro i hi
  have hbelow := below_of_mem_items hi
  exact ⟨h _ hbelow.node.to_reflTransGen, fun value hvalue => h.later (hbelow.value hvalue).to_reflTransGen⟩

theorem field {key : String} (hm : v.field? n key = some m) : v.FitsFrom last m := by
  obtain ⟨p, hp, hm⟩ := Option.bind_eq_some_iff.mp hm
  exact (h.pairs p (List.mem_of_find?_eq_some hp)).value m hm

theorem located : (v.located n).Fits last := h.range

theorem locatedTexts : ∀ l ∈ v.locatedTexts n, l.Fits last := by
  rw [View.locatedTexts]
  split
  · rw [View.texts, List.forall_mem_map]
    intro i hi
    split
    · exact (h.items i hi).range
    · exact (h.items i hi).markerRange
  · exact List.forall_mem_singleton.mpr h.located

end FitsFrom

end View

end PipelineLint.Yaml
