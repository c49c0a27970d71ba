import PipelineLint.Yaml.View
import Mathlib.Logic.Relation

/-! # What a node holds

A node holds its children, and an alias holds the value of its anchor. All that a view finds from a node
on is held by it, perhaps over others.

What a node holds lies below it or below the value of an anchor. So reading never leaves the pool: the
nodes below the values that it starts from and below the values of all anchors.
-/

namespace PipelineLint.Yaml.View

section

open Relation

variable (v : View)

/-- A node holds another one: as a child, or as an alias of it. -/
def Holds (n c : Node) : Prop :=
  c ∈ n.children ∨ n.kind = .alias ∧ v.values.get? (v.nameOfAlias n) = some c

abbrev Contains : Node → Node → Prop := TransGen (Holds v)

/-- Two nodes are the same, or the first one holds the second one, perhaps over others. -/
abbrev Reaches : Node → Node → Prop := ReflTransGen (Holds v)

variable {v}

mutual
/-- A node reaches all nodes of its tree. -/
theorem reaches_of_mem_preorder {m : Node} : (n : Node) → m ∈ n.preorder → v.Reaches n m
  | ⟨_, _, _, _, _, _, children⟩, hm => by
    rw [Node.preorder_eq] at hm
    rcases List.mem_cons.mp hm with rfl | hm
    · exact .refl
    · obtain ⟨c, hc, hreaches⟩ := reaches_of_mem_preorderAll children hm
      exact .head (.inl hc) hreaches
theorem reaches_of_mem_preorderAll {m : Node} : (ns : List Node) → m ∈ Node.preorderAll ns →
    ∃ c ∈ ns, v.Reaches c m
  | [], hm => by simp at hm
  | n :: ns, hm => by
    rw [Node.preorderAll_cons] at hm
    rcases List.mem_append.mp hm with hm | hm
    · exact ⟨n, List.mem_cons_self, reaches_of_mem_preorder n hm⟩
    · obtain ⟨c, hc, hreaches⟩ := reaches_of_mem_preorderAll ns hm
      exact ⟨c, List.mem_cons_of_mem _ hc, hreaches⟩
end

private theorem reaches_inner? {n c : Node} (h : inner? n = some c) : v.Reaches n c :=
  .single (.inl (List.mem_filter.mp (List.mem_of_find?_eq_some h)).1)

private theorem reaches_contentWithin {steps : Nat} {n c : Node} (h : v.contentWithin steps n = some c) :
    v.Reaches n c := by
  induction steps generalizing n with
  | zero => simp [contentWithin] at h
  | succ steps ih =>
    rw [contentWithin] at h
    split at h
    · obtain ⟨inner, hi, h⟩ := Option.bind_eq_some_iff.mp h
      exact (reaches_inner? hi).trans (ih h)
    · obtain ⟨inner, hi, h⟩ := Option.bind_eq_some_iff.mp h
      exact (reaches_inner? hi).trans (ih h)
    · rename_i hk
      obtain ⟨target, ht, h⟩ := Option.bind_eq_some_iff.mp h
      exact .head (.inr ⟨hk, ht⟩) (ih h)
    · exact Option.some.inj h ▸ .refl

theorem reaches_content? {n c : Node} (h : v.content? n = some c) : v.Reaches n c :=
  reaches_contentWithin h

theorem reaches_mapping? {n m : Node} (h : v.mapping? n = some m) : v.Reaches n m :=
  reaches_content? (Option.filter_eq_some_iff.mp h).1

theorem reaches_sequence? {n m : Node} (h : v.sequence? n = some m) : v.Reaches n m :=
  reaches_content? (Option.filter_eq_some_iff.mp h).1

theorem reaches_aliasOf? {n a : Node} (h : aliasOf? n = some a) : v.Reaches n a ∧ a.kind = .alias := by
  rw [aliasOf?] at h
  split at h
  · rename_i hk
    obtain rfl := Option.some.inj h
    exact ⟨.refl, hk⟩
  · have hk := List.find?_some h
    exact ⟨.single (.inl (List.mem_of_find?_eq_some h)), by simpa using hk⟩
  · have hk := List.find?_some h
    exact ⟨.single (.inl (List.mem_of_find?_eq_some h)), by simpa using hk⟩
  · cases h

private theorem reaches_resolveWithin (steps : Nat) (n : Node) : v.Reaches n (v.resolveWithin steps n) := by
  induction steps generalizing n with
  | zero => exact .refl
  | succ steps ih =>
    rw [resolveWithin]
    split
    · exact .refl
    · rename_i a ha
      obtain ⟨hna, hk⟩ := reaches_aliasOf? ha
      split
      · rename_i target ht
        exact hna.trans (.head (.inr ⟨hk, ht⟩) (ih target))
      · exact .refl

theorem reaches_resolve (n : Node) : v.Reaches n (v.resolve n) := reaches_resolveWithin maxAliasSteps n

/-- A pair whose node is held by a value. -/
structure PairBelow (v : View) (n : Node) (p : Pair) : Prop where
  eq : v.pair? p.node = some p
  node : v.Contains n p.node

theorem node_of_pair? {n : Node} {p : Pair} (h : v.pair? n = some p) : p.node = n := by
  rw [pair?] at h
  obtain ⟨-, h⟩ := Option.ite_none_right_eq_some.mp h
  exact congrArg Pair.node (Option.some.inj h).symm

theorem fields_of_pair? {n : Node} {p : Pair} (h : v.pair? n = some p) :
    n.kind.isPair ∧ n.key? = p.key ∧ n.value? = p.rawValue := by
  obtain ⟨hpair, h⟩ := Option.ite_none_right_eq_some.mp h
  exact ⟨hpair, congrArg Pair.key (Option.some.inj h), congrArg Pair.rawValue (Option.some.inj h)⟩

theorem holds_rawValue {p : Pair} {raw : Node} (h : v.pair? p.node = some p) (hr : p.rawValue = some raw) :
    v.Holds p.node raw := by
  rw [pair?] at h
  obtain ⟨-, h⟩ := Option.ite_none_right_eq_some.mp h
  have hraw : p.node.value? = p.rawValue := congrArg Pair.rawValue (Option.some.inj h)
  exact .inl (List.mem_of_find?_eq_some (hraw.trans hr))

theorem contains_value {p : Pair} {value : Node} (h : v.pair? p.node = some p)
    (hv : p.value = some value) : v.Contains p.node value := by
  have hp := h
  rw [pair?] at h
  obtain ⟨-, h⟩ := Option.ite_none_right_eq_some.mp h
  have hraw : p.node.value? = p.rawValue := congrArg Pair.rawValue (Option.some.inj h)
  have hvalue : p.node.value?.map v.resolve = p.value := congrArg Pair.value (Option.some.inj h)
  obtain ⟨raw, hr, rfl⟩ := Option.map_eq_some_iff.mp (hvalue.trans hv)
  exact .head' (holds_rawValue hp (hraw ▸ hr)) (reaches_resolve raw)

theorem value_of_pair? {n : Node} {p : Pair} (h : v.pair? n = some p) : p.value = p.rawValue.map v.resolve := by
  rw [pair?] at h
  obtain ⟨-, h⟩ := Option.ite_none_right_eq_some.mp h
  exact (Option.some.inj h) ▸ rfl

namespace PairBelow

variable {n : Node} {p : Pair}

theorem rawValue (h : PairBelow v n p) {raw : Node} (hr : p.rawValue = some raw) : v.Contains n raw :=
  h.node.tail (holds_rawValue h.eq hr)

theorem value (h : PairBelow v n p) {value : Node} (hv : p.value = some value) : v.Contains n value :=
  h.node.trans (contains_value h.eq hv)

theorem above {m : Node} (h : PairBelow v n p) (hm : v.Reaches m n) : PairBelow v m p :=
  ⟨h.eq, .trans_right hm h.node⟩

end PairBelow

theorem below_of_mem_directPairs {n : Node} {p : Pair} (h : p ∈ v.directPairs n) : PairBelow v n p := by
  rw [directPairs] at h
  split at h
  · rename_i mapping hm
    obtain ⟨c, hc, hp⟩ := List.mem_filterMap.mp h
    obtain rfl := node_of_pair? hp
    exact ⟨hp, TransGen.tail' (reaches_mapping? hm) (.inl hc)⟩
  · cases h

/-- An item whose node is held by a value. -/
structure ItemBelow (v : View) (n : Node) (i : Item) : Prop where
  eq : v.item? i.node = some i
  node : v.Contains n i.node

theorem reaches_itemValue {i : Item} {value : Node} (h : v.item? i.node = some i)
    (hv : i.value = some value) : v.Reaches i.node value := by
  rw [item?] at h
  split at h
  · have hvalue := congrArg Item.value (Option.some.inj h)
    obtain ⟨raw, hr, rfl⟩ := Option.map_eq_some_iff.mp (hvalue.trans hv)
    exact .head (.inl (List.mem_of_find?_eq_some hr)) (reaches_resolve raw)
  · have hvalue := congrArg Item.value (Option.some.inj h)
    obtain rfl := Option.some.inj (hvalue.trans hv)
    exact reaches_resolve _
  · have hvalue := congrArg Item.value (Option.some.inj h)
    obtain rfl := Option.some.inj (hvalue.trans hv)
    exact reaches_resolve _
  · cases h

theorem ItemBelow.value {n : Node} {i : Item} (h : ItemBelow v n i) {value : Node}
    (hv : i.value = some value) : v.Contains n value :=
  h.node.trans_left (reaches_itemValue h.eq hv)

theorem ItemBelow.above {n m : Node} {i : Item} (h : ItemBelow v n i) (hm : v.Reaches m n) : ItemBelow v m i :=
  ⟨h.eq, .trans_right hm h.node⟩

theorem node_of_item? {n : Node} {i : Item} (h : v.item? n = some i) : i.node = n := by
  rw [item?] at h
  split at h
  · exact congrArg Item.node (Option.some.inj h).symm
  · exact congrArg Item.node (Option.some.inj h).symm
  · exact congrArg Item.node (Option.some.inj h).symm
  · cases h

theorem below_of_mem_items {n : Node} {i : Item} (h : i ∈ v.items n) : ItemBelow v n i := by
  rw [items] at h
  split at h
  · rename_i sequence hs
    obtain ⟨c, hc, hi⟩ := List.mem_filterMap.mp h
    obtain rfl := node_of_item? hi
    exact ⟨hi, TransGen.tail' (reaches_sequence? hs) (.inl hc)⟩
  · cases h

private theorem reaches_mergeSource {value m : Node} (h : m ∈ v.mergeSources value) : v.Reaches value m := by
  rw [mergeSources] at h
  split at h
  · rename_i mapping hm
    obtain rfl := List.mem_singleton.mp h
    exact reaches_mapping? hm
  · obtain ⟨i, hi, h⟩ := List.mem_filterMap.mp h
    obtain ⟨target, ht, h⟩ := Option.bind_eq_some_iff.mp h
    exact ((below_of_mem_items hi).value ht).to_reflTransGen.trans (reaches_mapping? h)

theorem reaches_merged {mapping m : Node} (h : m ∈ v.merged mapping) : v.Reaches mapping m := by
  obtain ⟨p, hp, h⟩ := List.mem_flatMap.mp h
  have hbelow := below_of_mem_directPairs (List.mem_filter.mp hp).1
  cases hv : p.value with
  | none => simp [hv] at h
  | some value =>
    exact (hbelow.value hv).to_reflTransGen.trans (reaches_mergeSource (by simpa [hv] using h))

/-- A visit adds only pairs below the value that it visits. -/
theorem mem_visit {fuel : Nat} {isRoot : Bool} {n : Node} {s : Visit} {p : Pair}
    (h : p ∈ (v.visit fuel isRoot n s).pairs) : p ∈ s.pairs ∨ PairBelow v n p := by
  induction fuel generalizing isRoot n s with
  | zero => exact .inl h
  | succ fuel ih =>
    rw [visit] at h
    split at h
    · exact .inl h
    · rename_i mapping hm
      have hmapping := reaches_mapping? hm
      split at h
      · exact .inl h
      · have hfold : ∀ (sources : List Node) (s' : Visit), (∀ source ∈ sources, v.Reaches n source) →
            p ∈ (sources.foldl (fun s source => v.visit fuel false source s) s').pairs →
            p ∈ s'.pairs ∨ PairBelow v n p := by
          intro sources
          induction sources with
          | nil => exact fun s' _ h => .inl h
          | cons source sources ihs =>
            intro s' hsources h
            rcases ihs _ (fun m hm => hsources m (List.mem_cons_of_mem _ hm)) h with h | h
            · rcases ih h with h | h
              · exact .inl h
              · exact .inr (h.above (hsources source List.mem_cons_self))
            · exact .inr h
        rcases hfold _ _ (fun m hsource => hmapping.trans (reaches_merged hsource)) h with h | h
        · rcases List.mem_append.mp h with h | h
          · exact .inl h
          · exact .inr ((below_of_mem_directPairs (List.mem_filter.mp h).1).above hmapping)
        · exact .inr h

theorem below_of_mem_pairs {n : Node} {p : Pair} (h : p ∈ v.pairs n) : PairBelow v n p := by
  rcases mem_visit h with h | h
  · cases h
  · exact h

end

variable (v : View)

/-- The nodes below some values and below the values of all anchors. -/
def pool (values : List Node) : List Node := Node.preorderAll (values ++ v.values.values)

variable {v} {values : List Node}

theorem length_pool : (v.pool values).length = Node.sizeAll values + v.size := by
  rw [pool, Node.length_preorderAll, Node.sizeAll_append, v.size_eq]

theorem start_mem_pool {n : Node} (h : n ∈ values) : n ∈ v.pool values :=
  Node.mem_preorderAll.mpr ⟨n, List.mem_append_left _ h, n.self_mem_preorder⟩

theorem held_mem_pool {n c : Node} (hn : n ∈ v.pool values) (h : v.Holds n c) : c ∈ v.pool values := by
  rcases h with hc | ⟨-, ht⟩
  · exact Node.child_mem_preorderAll hc _ hn
  · obtain ⟨entry, he, rfl⟩ := Option.map_eq_some_iff.mp ht
    have hv : entry.2 ∈ v.values.values := List.mem_map_of_mem (List.mem_of_find?_eq_some he)
    exact Node.mem_preorderAll.mpr ⟨_, List.mem_append_right _ hv, entry.2.self_mem_preorder⟩

theorem reached_mem_pool {n c : Node} (hn : n ∈ v.pool values) (h : v.Reaches n c) :
    c ∈ v.pool values := by
  induction h with
  | refl => exact hn
  | tail _ h ih => exact held_mem_pool ih h

theorem contained_mem_pool {n c : Node} (hn : n ∈ v.pool values) (h : v.Contains n c) :
    c ∈ v.pool values :=
  reached_mem_pool hn h.to_reflTransGen

end PipelineLint.Yaml.View
