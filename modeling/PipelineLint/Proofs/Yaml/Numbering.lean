import PipelineLint.Proofs.Yaml.Anchors
import PipelineLint.Proofs.Yaml.Holds
import Mathlib.Data.List.Nodup

/-! # Numbers tell nodes apart

The numbers of a tree count its nodes in document order. The values of anchors are nodes of the tree, so two nodes
that reading can reach from the tree are the same if they have the same number: `View.eq_of_id_eq`. An alias mostly
stands after all of the value that it means. Where all aliases do, each step from a node to one that it holds goes back
or inwards, so no value contains itself: `View.LooksBack.not_contains_self`.
-/

namespace PipelineLint.Yaml

namespace Node

mutual
/-- Numbering counts the nodes in document order. -/
theorem map_id_numberFrom (next : Nat) : (n : Node) →
    (numberFrom next n).1.preorder.map id = List.range' next n.size ∧ (numberFrom next n).2 = next + n.size
  | ⟨_, _, _, _, _, _, children⟩ => by
    obtain ⟨hids, hnext⟩ := map_id_numberAllFrom (next + 1) children
    constructor
    · simp [numberFrom, preorder_eq, hids, size, Nat.add_comm 1, List.range'_succ]
    · simp [numberFrom, hnext, size]
      omega
theorem map_id_numberAllFrom (next : Nat) : (ns : List Node) →
    (preorderAll (numberAllFrom next ns).1).map id = List.range' next (sizeAll ns) ∧
      (numberAllFrom next ns).2 = next + sizeAll ns
  | [] => by simp [numberAllFrom]
  | n :: ns => by
    obtain ⟨hids, hnext⟩ := map_id_numberFrom next n
    obtain ⟨hids', hnext'⟩ := map_id_numberAllFrom (numberFrom next n).2 ns
    rw [hnext] at hids' hnext'
    constructor
    · simp [numberAllFrom, hids, hids', hnext]
    · simp [numberAllFrom, hnext', hnext]
      omega
end

end Node

namespace Cursor

/-- All nodes that a cursor remembers are nodes of a tree. -/
structure Within (root : Node) (c : Cursor) : Prop where
  node : c.node ∈ root.preorder
  path : ∀ frame ∈ c.path, frame.parent ∈ root.preorder ∧ ∀ n ∈ frame.right, n ∈ root.preorder

namespace Within

variable {root : Node}

private theorem firstChild? {c next : Cursor} (h : Within root c) (hnext : c.firstChild? = some next) :
    Within root next := by
  rw [Cursor.firstChild?] at hnext
  cases hchildren : c.node.children with
  | nil => simp [hchildren] at hnext
  | cons child right =>
    simp only [hchildren, Option.some.injEq] at hnext
    have hbelow : ∀ n ∈ child :: right, n ∈ root.preorder := by
      intro n hn
      exact Node.child_mem_preorder (hchildren ▸ hn) root h.node
    subst hnext
    refine ⟨hbelow child List.mem_cons_self, fun frame hframe => ?_⟩
    rcases List.mem_cons.mp hframe with rfl | hframe
    · exact ⟨h.node, fun n hn => hbelow n (List.mem_cons_of_mem _ hn)⟩
    · exact h.path frame hframe

private theorem climb? {n : Node} {path : List Frame} {next : Cursor}
    (h : ∀ frame ∈ path, frame.parent ∈ root.preorder ∧ ∀ n ∈ frame.right, n ∈ root.preorder)
    (hnext : Cursor.climb? n path = some next) : Within root next := by
  induction path generalizing n with
  | nil => cases hnext
  | cons frame path ih =>
    obtain ⟨parent, right⟩ := frame
    obtain ⟨⟨hparent, hright⟩, hpath⟩ := List.forall_mem_cons.mp h
    cases right with
    | nil => exact ih hpath hnext
    | cons sibling right =>
      obtain rfl := Option.some.inj hnext
      refine ⟨hright sibling List.mem_cons_self, List.forall_mem_cons.mpr ⟨⟨hparent, ?_⟩, hpath⟩⟩
      exact fun n hn => hright n (List.mem_cons_of_mem _ hn)

private theorem next? {c next : Cursor} (h : Within root c) (hnext : c.next? = some next) : Within root next := by
  rw [Cursor.next?] at hnext
  cases hchild : c.firstChild? with
  | none => exact climb? h.path (by simpa [hchild] using hnext)
  | some child => exact h.firstChild? (by simpa [hchild] using hnext)

private theorem of_mem_walkSteps {steps : Nat} {c place : Cursor} (h : Within root c)
    (hplace : place ∈ walkSteps steps c) : Within root place := by
  induction steps generalizing c with
  | zero => cases hplace
  | succ steps ih =>
    rcases List.mem_cons.mp hplace with rfl | hplace
    · exact h
    · cases hnext : c.next? with
      | none => simp [hnext] at hplace
      | some next => exact ih (h.next? hnext) (by simpa [hnext] using hplace)

private theorem of_mem_places {place : Cursor} (h : place ∈ root.places) : Within root place :=
  of_mem_walkSteps ⟨root.self_mem_preorder, by simp⟩ h

private theorem parentNode? {c : Cursor} {parent : Node} (h : Within root c) (hparent : c.parentNode? = some parent) :
    parent ∈ root.preorder := by
  obtain ⟨frame, hframe, rfl⟩ := Option.map_eq_some_iff.mp hparent
  exact (h.path frame (List.mem_of_head? hframe)).1

end Within

end Cursor

namespace Anchors

/-- The value of an anchor is a node of the tree. -/
theorem value_mem_preorder {t : Tree} {name : String} {value : Node}
    (h : (ofTree t).values.get? name = some value) : value ∈ t.root.preorder := by
  rw [(referred_ofTree t).values] at h
  obtain ⟨d, hd, rfl⟩ := Option.map_eq_some_iff.mp h
  obtain ⟨place, hplace, hd⟩ := List.exists_of_findSome?_eq_some hd
  have hdefinition : definition? t place = some d := (Option.filter_eq_some_iff.mp hd).1
  have hwithin := Cursor.Within.of_mem_places (List.mem_reverse.mp hplace)
  rw [definition?] at hdefinition
  cases hparent : place.parentNode? with
  | none => simp [hparent] at hdefinition
  | some parent =>
    simp only [hparent, Option.ite_none_right_eq_some, Option.some.injEq] at hdefinition
    obtain ⟨-, rfl⟩ := hdefinition
    exact hwithin.parentNode? hparent

end Anchors

namespace Tree

/-- The nodes of a tree are numbered in document order. -/
def IsNumbered (t : Tree) : Prop := (t.root.preorder.map Node.id).Pairwise (· < ·)

instance (t : Tree) : Decidable t.IsNumbered := inferInstanceAs (Decidable (List.Pairwise _ _))

theorem IsNumbered.eq_of_id_eq {t : Tree} {n m : Node} (ht : t.IsNumbered) (hn : n ∈ t.root.preorder)
    (hm : m ∈ t.root.preorder) (h : n.id = m.id) : n = m :=
  List.inj_on_of_nodup_map (List.Pairwise.imp Nat.ne_of_lt ht) hn hm h

/-- The value of the first document is a node of the tree. -/
theorem top_mem_preorder (t : Tree) : t.top ∈ t.root.preorder := by
  rw [top]
  cases h : t.top? with
  | none => exact t.root.self_mem_preorder
  | some n =>
    obtain ⟨document, hdocument, hn⟩ := Option.bind_eq_some_iff.mp h
    have hmem := Node.child_mem_preorder (List.mem_of_find?_eq_some hdocument) _ t.root.self_mem_preorder
    exact Node.child_mem_preorder (List.mem_of_find?_eq_some hn) _ hmem

end Tree

theorem Grammar.isNumbered_tree (g : Grammar) (source : List Char) : (g.tree source).IsNumbered := by
  rw [Tree.IsNumbered, Grammar.tree, Node.number, (Node.map_id_numberFrom 0 _).1]
  exact List.pairwise_lt_range'

namespace View

/-- What reading reaches from a node of a tree are nodes of the tree. -/
theorem mem_preorder_of_reaches {t : Tree} {n m : Node} (hn : n ∈ t.root.preorder)
    (h : (ofTree t).Reaches n m) : m ∈ t.root.preorder := by
  induction h with
  | refl => exact hn
  | tail _ h ih =>
    rcases h with hchild | ⟨-, halias⟩
    · exact Node.child_mem_preorder hchild _ ih
    · exact Anchors.value_mem_preorder halias

/-- What reading reaches is told apart by its numbers. -/
theorem eq_of_id_eq {t : Tree} {n a b : Node} (ht : t.IsNumbered) (hn : n ∈ t.root.preorder)
    (ha : (ofTree t).Reaches n a) (hb : (ofTree t).Reaches n b) (h : a.id = b.id) : a = b :=
  ht.eq_of_id_eq (mem_preorder_of_reaches hn ha) (mem_preorder_of_reaches hn hb) h

end View

namespace Node

/-- A node outlasts another one: one of its nodes comes after all of the other one, or it holds these and more. -/
def Outlasts (n m : Node) : Prop :=
  (∃ last ∈ n.preorder, ∀ x ∈ m.preorder, x.id < last.id) ∨ m.preorder ⊆ n.preorder ∧ m.size < n.size

private theorem Outlasts.irrefl (n : Node) : ¬n.Outlasts n := by
  rintro (⟨last, hlast, hbefore⟩ | ⟨-, hsize⟩)
  · exact Nat.lt_irrefl _ (hbefore last hlast)
  · exact Nat.lt_irrefl _ hsize

theorem Outlasts.trans {n m k : Node} (h : n.Outlasts m) (h' : m.Outlasts k) : n.Outlasts k := by
  rcases h with ⟨last, hlast, hbefore⟩ | ⟨hinside, hsize⟩ <;>
    rcases h' with ⟨last', hlast', hbefore'⟩ | ⟨hinside', hsize'⟩
  · exact .inl ⟨last, hlast, fun x hx => Nat.lt_trans (hbefore' x hx) (hbefore last' hlast')⟩
  · exact .inl ⟨last, hlast, fun x hx => hbefore x (hinside' hx)⟩
  · exact .inl ⟨last', hinside hlast', hbefore'⟩
  · exact .inr ⟨fun x hx => hinside (hinside' hx), Nat.lt_trans hsize' hsize⟩

private theorem outlasts_child {n c : Node} (h : c ∈ n.children) : n.Outlasts c := by
  have hinside : c.preorder ⊆ preorderAll n.children := fun x hx => mem_preorderAll.mpr ⟨c, h, hx⟩
  have hsize : c.size ≤ sizeAll n.children := by
    obtain ⟨before, after, hchildren⟩ := List.append_of_mem h
    simp only [hchildren, sizeAll_append, sizeAll_cons]
    omega
  refine .inr ⟨fun x hx => ?_, ?_⟩
  · rw [preorder_eq]
    exact List.mem_cons_of_mem _ (hinside hx)
  · rw [← length_preorder n, preorder_eq, List.length_cons, length_preorderAll]
    exact Nat.lt_succ_of_le hsize

end Node

namespace View

/-- All aliases of a tree come after all nodes of the values that they mean. -/
def LooksBack (t : Tree) : Prop :=
  ∀ a ∈ t.root.preorder, a.kind = .alias → ∀ value ∈ (ofTree t).values.get? ((ofTree t).nameOfAlias a),
    ∀ m ∈ value.preorder, m.id < a.id

instance (t : Tree) : Decidable (LooksBack t) :=
  inferInstanceAs (Decidable (∀ a ∈ t.root.preorder, a.kind = .alias →
    ∀ value ∈ (ofTree t).values.get? ((ofTree t).nameOfAlias a), ∀ m ∈ value.preorder, m.id < a.id))

variable {t : Tree} {n m : Node}

private theorem LooksBack.outlasts (h : LooksBack t) (hn : n ∈ t.root.preorder) (hm : (ofTree t).Contains n m) :
    n.Outlasts m := by
  have hstep : ∀ {m c : Node}, m ∈ t.root.preorder → (ofTree t).Holds m c → m.Outlasts c := by
    rintro m c hm (hchild | ⟨halias, hvalue⟩)
    · exact Node.outlasts_child hchild
    · exact .inl ⟨m, m.self_mem_preorder, h m hm halias c hvalue⟩
  induction hm with
  | single hm => exact hstep hn hm
  | tail hnm hm ih => exact ih.trans (hstep (mem_preorder_of_reaches hn hnm.to_reflTransGen) hm)

/-- Where aliases look back, no value contains itself. -/
theorem LooksBack.not_contains_self (h : LooksBack t) (hn : n ∈ t.root.preorder) (hm : (ofTree t).Reaches n m) :
    ¬(ofTree t).Contains m m :=
  fun hself => Node.Outlasts.irrefl m (h.outlasts (mem_preorder_of_reaches hn hm) hself)

end View

end PipelineLint.Yaml
