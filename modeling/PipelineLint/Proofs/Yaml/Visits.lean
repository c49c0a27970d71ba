import PipelineLint.Concrete.Grammar.Stream
import PipelineLint.Proofs.Yaml.Edges
import PipelineLint.Proofs.Yaml.PlainMerges

/-! # Visits of merges end

Merges may lead round in a circle, so a visit of a mapping has no natural measure but the mappings that it has not
entered yet. `Visits` is a visit without any bound on how deep mappings are entered in each other. Every visit ends, and
no mapping, no pair and, from two mappings, no key is met twice: `visit_once`.
-/

namespace PipelineLint.Yaml.View

/-- The state after a mapping is entered: its pairs are met, but for merges and for keys that were met before. -/
def Visit.enter (v : View) (s : Visit) (m : Node) : Visit :=
  ⟨s.keys ++ (Visited.own v false s.keys m).map v.keyText, m.id :: s.entered, s.pairs ++ Visited.own v false s.keys m⟩

/-- A visit of some values, one after the other, leads from one state to another. -/
inductive Visits (v : View) : List Node → Visit → Visit → Prop where
  | done (s : Visit) : Visits v [] s s
  | nothing {n : Node} {ns : List Node} {s t : Visit} (none : v.mapping? n = none) (rest : Visits v ns s t) :
      Visits v (n :: ns) s t
  | again {n m : Node} {ns : List Node} {s t : Visit} (some : v.mapping? n = some m) (old : m.id ∈ s.entered)
      (rest : Visits v ns s t) : Visits v (n :: ns) s t
  | enter {n m : Node} {ns : List Node} {s t u : Visit} (some : v.mapping? n = some m) (new : m.id ∉ s.entered)
      (merged : Visits v (v.merged m) (s.enter v m) t) (rest : Visits v ns t u) : Visits v (n :: ns) s u

variable {v : View} {n m : Node} {ns : List Node} {s t : Visit}

namespace Visits

private theorem unique {u : Visit} (h : Visits v ns s t) (h' : Visits v ns s u) : u = t := by
  induction h generalizing u with
  | done s =>
    cases h'
    rfl
  | nothing hn _ ih =>
    cases h' with
    | nothing _ rest => exact ih rest
    | again hs _ _ => cases hn.symm.trans hs
    | enter hs _ _ _ => cases hn.symm.trans hs
  | again hs old _ ih =>
    cases h' with
    | nothing hn _ => cases hs.symm.trans hn
    | again _ _ rest => exact ih rest
    | enter hs' new _ _ =>
      obtain rfl := Option.some.inj (hs.symm.trans hs')
      exact absurd old new
  | enter hs new _ _ ihMerged ihRest =>
    cases h' with
    | nothing hn _ => cases hs.symm.trans hn
    | again hs' old _ =>
      obtain rfl := Option.some.inj (hs.symm.trans hs')
      exact absurd old new
    | enter hs' _ merged rest =>
      obtain rfl := Option.some.inj (hs.symm.trans hs')
      obtain rfl := ihMerged merged
      exact ihRest rest

private theorem append {ms : List Node} {u : Visit} (h : Visits v ns s t) (h' : Visits v ms t u) :
    Visits v (ns ++ ms) s u := by
  induction h with
  | done s => exact h'
  | nothing hn _ ih => exact .nothing hn (ih h')
  | again hs old _ ih => exact .again hs old (ih h')
  | enter hs new merged _ _ ih => exact .enter hs new merged (ih h')

variable {values reached : List Node}

private theorem foldl (visit : Visit → Node → Visit) (bound : Nat)
    (step : ∀ reached s n, n ∈ ns → bound ≤ reached.length → Visited v values reached s →
      Visits v [n] s (visit s n) ∧ Continues v values reached [n] (visit s n))
    (hb : bound ≤ reached.length) (h : Visited v values reached s) : Visits v ns s (ns.foldl visit s) := by
  induction ns generalizing reached s with
  | nil => exact .done s
  | cons n ns ih =>
    obtain ⟨hfirst, more, hvisited, -⟩ := step reached s n List.mem_cons_self hb h
    have hrest := ih (fun reached s n hn => step reached s n (List.mem_cons_of_mem _ hn))
      (Nat.le_trans hb (by simp)) hvisited
    exact hfirst.append hrest

/-- Fuel for each mapping that may still be entered is enough. -/
theorem of_visit (fuel : Nat) (hn : n ∈ v.pool values) (hf : (v.pool values).length < fuel + reached.length)
    (h : Visited v values reached s) : Visits v [n] s (v.visit fuel false n s) := by
  induction fuel generalizing n reached s with
  | zero =>
    have := h.length_le
    omega
  | succ fuel ih =>
    rw [visit]
    cases hm : v.mapping? n with
    | none => exact .nothing hm (.done s)
    | some m =>
      have hmem : s.entered.contains m.id = true ↔ m.id ∈ s.entered := List.contains_iff_mem
      by_cases old : m.id ∈ s.entered
      · simp only [hmem.mpr old, if_true]
        exact .again hm old (.done s)
      · simp only [mt hmem.mp old]
        have hpool := reached_mem_pool hn (reaches_mapping? hm)
        have hentered : Visited v values (reached ++ [m]) (s.enter v m) :=
          h.enter false hpool (by simpa [h.entered] using old)
        have hmerged := foldl (fun s source => v.visit fuel false source s) (reached.length + 1)
          (fun reached' s' source hsource hb h' =>
            have hsource := reached_mem_pool hpool (reaches_merged hsource)
            ⟨ih hsource (by omega) h', visit_continues fuel false hsource (by omega) h'⟩)
          (by simp) hentered
        exact .enter hm old hmerged (.done _)

/-- No key was met before the first mapping is entered, so none of its keys is hidden. -/
theorem visit_first (fuel : Nat) (n : Node) : v.visit fuel true n {} = v.visit fuel false n {} := by
  cases fuel with
  | zero => rfl
  | succ fuel => simp [visit]

end Visits

/-- The nodes that a visit may come to are those of one tree, each of which has a number of its own. -/
structure InTree (v : View) : Prop where
  numbered : (v.tree.root.preorder.map Node.id).Pairwise (· < ·)
  values : ∀ name value, v.values.get? name = some value → value ∈ v.tree.root.preorder

private theorem inTree_ofTree {t : Tree} (ht : t.IsNumbered) : InTree (ofTree t) where
  numbered := ht
  values _ _ hvalue := Anchors.value_mem_preorder hvalue

theorem InTree.of_reaches (h : InTree v) (hn : n ∈ v.tree.root.preorder) (hm : v.Reaches n m) :
    m ∈ v.tree.root.preorder := by
  induction hm with
  | refl => exact hn
  | tail _ hm ih =>
    rcases hm with hchild | ⟨-, halias⟩
    · exact Node.child_mem_preorder hchild _ ih
    · exact h.values _ _ halias

/-- The pairs that were met are children of mappings that were entered, none is met twice, and those with one key are
children of one mapping. -/
structure Once (v : View) (s : Visit) : Prop where
  entered : s.entered.Nodup
  keys : s.keys = s.pairs.map v.keyText
  noMerge : ∀ p ∈ s.pairs, v.keyText p ≠ mergeKey
  below : ∀ p ∈ s.pairs, ∃ m ∈ v.tree.root.preorder, m.id ∈ s.entered ∧ p.node ∈ m.children
  nodup : (s.pairs.map (·.node)).Nodup
  beside : ∀ p ∈ s.pairs, ∀ q ∈ s.pairs, v.keyText p = v.keyText q →
    ∃ m ∈ v.tree.root.preorder, p.node ∈ m.children ∧ q.node ∈ m.children

private theorem Once.empty : Once v {} where
  entered := List.nodup_nil
  keys := rfl
  noMerge := by simp
  below := by simp
  nodup := List.nodup_nil
  beside := by simp

/-- The pairs written in a mapping are some of its children, in their order. -/
theorem map_node_directPairs_sublist (hm : v.mapping? m = some m) :
    ((v.directPairs m).map (·.node)).Sublist m.children := by
  have hnode : ∀ ns : List Node, ((ns.filterMap v.pair?).map (·.node)).Sublist ns := by
    intro ns
    induction ns with
    | nil => exact List.Sublist.refl _
    | cons n ns ih =>
      cases hp : v.pair? n with
      | none =>
        rw [List.filterMap_cons_none hp]
        exact ih.cons n
      | some p =>
        rw [List.filterMap_cons_some hp, List.map_cons, node_of_pair? hp]
        exact ih.cons_cons n
  rw [directPairs, hm]
  exact hnode m.children

private theorem mem_own {keys : List String} {p : Pair} (hm : v.mapping? m = some m)
    (hp : p ∈ Visited.own v false keys m) :
    v.keyText p ≠ mergeKey ∧ v.keyText p ∉ keys ∧ p.node ∈ m.children := by
  obtain ⟨hdirect, hkey⟩ := List.mem_filter.mp hp
  have hnode := (map_node_directPairs_sublist hm).subset (List.mem_map_of_mem hdirect)
  simp only [Bool.and_eq_true, bne_iff_ne, Bool.false_or, Bool.not_eq_true', List.contains_eq_mem,
    decide_eq_false_iff_not] at hkey
  exact ⟨hkey.1, hkey.2, hnode⟩

private theorem Once.enter (htree : InTree v) (h : Once v s) (hm : m ∈ v.tree.root.preorder)
    (hself : v.mapping? m = some m)
    (new : m.id ∉ s.entered) : Once v (s.enter v m) where
  entered := List.nodup_cons.mpr ⟨new, h.entered⟩
  keys := by simp [Visit.enter, h.keys]
  noMerge := List.forall_mem_append.mpr ⟨h.noMerge, fun p hp => (mem_own hself hp).1⟩
  below := by
    refine List.forall_mem_append.mpr ⟨fun p hp => ?_, fun p hp => ?_⟩
    · obtain ⟨m', hm', hentered, hp⟩ := h.below p hp
      exact ⟨m', hm', List.mem_cons_of_mem _ hentered, hp⟩
    · exact ⟨m, hm, List.mem_cons_self, (mem_own hself hp).2.2⟩
  nodup := by
    have hown : ((Visited.own v false s.keys m).map (·.node)).Nodup :=
      (Node.nodup_children htree.numbered hm).sublist
        ((List.filter_sublist.map _).trans (map_node_directPairs_sublist hself))
    show ((s.pairs ++ Visited.own v false s.keys m).map (·.node)).Nodup
    rw [List.map_append]
    refine h.nodup.append hown fun node hold hnew => ?_
    -- A pair that was met before is a child of a mapping that was entered before, and of no other one.
    obtain ⟨p, hp, rfl⟩ := List.mem_map.mp hold
    obtain ⟨q, hq, hnode⟩ := List.mem_map.mp hnew
    obtain ⟨m', hm', hentered, hchild⟩ := h.below p hp
    obtain rfl := Node.parent_unique htree.numbered hm hm' (hnode ▸ (mem_own hself hq).2.2) hchild
    exact new hentered
  beside := by
    have hkeys : ∀ p ∈ s.pairs, ∀ q ∈ Visited.own v false s.keys m, v.keyText p ≠ v.keyText q := by
      intro p hp q hq heq
      refine (mem_own hself hq).2.1 ?_
      rw [h.keys, ← heq]
      exact List.mem_map_of_mem hp
    intro p hp q hq heq
    rcases List.mem_append.mp hp with hp | hp <;> rcases List.mem_append.mp hq with hq | hq
    · exact h.beside p hp q hq heq
    · exact absurd heq (hkeys p hp q hq)
    · exact absurd heq.symm (hkeys q hq p hp)
    · exact ⟨m, hm, (mem_own hself hp).2.2, (mem_own hself hq).2.2⟩

private theorem Visits.once (htree : InTree v) (h : Visits v ns s t) (hns : ∀ n ∈ ns, n ∈ v.tree.root.preorder)
    (hs : Once v s) : Once v t := by
  induction h with
  | done s => exact hs
  | nothing _ _ ih => exact ih (List.forall_mem_cons.mp hns).2 hs
  | again _ _ _ ih => exact ih (List.forall_mem_cons.mp hns).2 hs
  | enter hm new _ _ ihMerged ihRest =>
    obtain ⟨hn, hns⟩ := List.forall_mem_cons.mp hns
    have hmem := htree.of_reaches hn (reaches_mapping? hm)
    have hmerged := ihMerged (fun source hsource => htree.of_reaches hmem (reaches_merged hsource))
      (hs.enter htree hmem (mapping?_self hm) new)
    exact ihRest hns hmerged

/-- Visiting the pairs of a value, whatever its mappings merge, comes to one end, which any bound on how deep mappings
are entered in each other agrees with if it is large enough. Each mapping is entered once at most and each pair is met
once at most, no pair is a merge, and pairs that have one key are written in one mapping. -/
theorem visit_once (v : View) (htree : InTree v) (hn : n ∈ v.tree.root.preorder) :
    ∃ (order : List Node) (s : Visit), Visits v [n] {} s ∧ (∀ t, Visits v [n] {} t → t = s) ∧
      (∀ fuel, n.size + v.size < fuel → v.visit fuel true n {} = s) ∧ v.pairs n = s.pairs ∧
      s.entered = (order.map Node.id).reverse ∧ order.Nodup ∧ (∀ m ∈ order, m ∈ v.tree.root.preorder) ∧
      (s.pairs.map (·.node)).Nodup ∧ (∀ p ∈ s.pairs, v.keyText p ≠ mergeKey) ∧
      ∀ p ∈ s.pairs, ∀ q ∈ s.pairs, ∀ m ∈ v.tree.root.preorder, ∀ m' ∈ v.tree.root.preorder,
        p.node ∈ m.children → q.node ∈ m'.children → v.keyText p = v.keyText q → m = m' := by
  have hpool : n ∈ v.pool [n] := start_mem_pool List.mem_cons_self
  have hfuel : ∀ fuel, n.size + v.size < fuel → Visits v [n] {} (v.visit fuel true n {}) := by
    intro fuel hf
    rw [Visits.visit_first]
    exact .of_visit fuel hpool (by simpa [length_pool] using hf) Visited.empty
  obtain ⟨order, hwalk, hvisited⟩ := pairs_visited v n
  have hvisits := hfuel _ (Nat.lt_succ_self _)
  have honce := hvisits.once htree (by simpa using hn) Once.empty
  have hreached : ∀ m ∈ order, m ∈ v.tree.root.preorder := by
    refine hwalk.sound (· ∈ v.tree.root.preorder) ?_ (by simp) ?_
    · rintro m target hm ⟨source, hsource, htarget⟩
      exact htree.of_reaches hm ((reaches_merged hsource).trans (reaches_mapping? htarget))
    · intro source hsource m hm
      rw [List.mem_singleton.mp hsource] at hm
      exact htree.of_reaches hn (reaches_mapping? hm)
  refine ⟨order, _, hvisits, fun t ht => hvisits.unique ht, fun fuel hf => hvisits.unique (hfuel fuel hf), rfl,
    hvisited.entered, List.Nodup.of_map _ hvisited.nodup, hreached, honce.nodup, honce.noMerge, ?_⟩
  intro p hp q hq m hm m' hm' hchild hchild' heq
  obtain ⟨both, hboth, hp, hq⟩ := honce.beside p hp q hq heq
  rw [Node.parent_unique htree.numbered hm hboth hchild hp, Node.parent_unique htree.numbered hm' hboth hchild' hq]

/-- A mapping that merges itself and one that merges it in turn. -/
def circularMerges : Tree := Grammar.strict.tree "a: &a\n  x: 1\n  <<: [*a, *b]\nb: &b\n  <<: *a\n  x: 2\n  y: 3\n".toList

def circularMapping : Node := ((ofTree circularMerges).field? circularMerges.top "a").getD circularMerges.top

/-- Both mappings are entered, and the keys `x` and `y` are met once each. -/
theorem visit_once_of_circular :
    InTree (ofTree circularMerges) ∧ circularMapping ∈ circularMerges.root.preorder ∧
      ∃ s, Visits (ofTree circularMerges) [circularMapping] {} s ∧ s.keys = ["x", "y"] ∧ s.entered.length = 2 ∧
        (s.pairs.map (·.node)).Nodup := by
  obtain ⟨hmapping, hkeys, hentered⟩ : circularMapping ∈ circularMerges.root.preorder ∧
      ((ofTree circularMerges).visit (circularMapping.size + (ofTree circularMerges).size + 1) true circularMapping
        {}).keys = ["x", "y"] ∧
      ((ofTree circularMerges).visit (circularMapping.size + (ofTree circularMerges).size + 1) true circularMapping
        {}).entered.length = 2 := by
    decide +kernel
  have htree : InTree (ofTree circularMerges) := inTree_ofTree (Grammar.isNumbered_tree _ _)
  obtain ⟨order, s, hvisits, -, hfuel, -, -, -, -, hnodup, -⟩ := visit_once (ofTree circularMerges) htree hmapping
  rw [hfuel _ (Nat.lt_add_one _)] at hkeys hentered
  exact ⟨htree, hmapping, s, hvisits, hkeys, hentered, hnodup⟩

end PipelineLint.Yaml.View
