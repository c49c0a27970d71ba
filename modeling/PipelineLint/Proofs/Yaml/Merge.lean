import PipelineLint.Proofs.Yaml.Holds
import Mathlib.Data.List.Nodup
import Mathlib.Data.List.Perm.Subperm
import Mathlib.Logic.Relation

/-! # The order of merges

A depth-first walk from a mapping through its merges gives the mappings that count in the order in which
they count. `MergeWalk` is that walk with an explicit stack; it knows nothing of keys. The pairs of a
mapping agree with it: a key means what the first mapping of the walk with that key says.

A merged mapping contributes no pair whose key was met before it was entered. So where a key stands twice among the
pairs of a value, both pairs are written in one mapping: a key that is hidden by a merge is no repetition.
-/

namespace PipelineLint.Yaml.View

section

open Relation

/-- The walk through merges that has reached some mappings, in this order, and is still to enter the values
on its stack, reaches the mappings of the last list. No mapping is entered twice. -/
inductive MergeWalk (v : View) : List Node → List Node → List Node → Prop where
  | done (reached : List Node) : MergeWalk v reached [] reached
  | nothing {reached stack order : List Node} {n : Node} (none : v.mapping? n = none)
      (rest : MergeWalk v reached stack order) : MergeWalk v reached (n :: stack) order
  | again {reached stack order : List Node} {n m : Node} (some : v.mapping? n = some m)
      (old : m.id ∈ reached.map Node.id) (rest : MergeWalk v reached stack order) :
      MergeWalk v reached (n :: stack) order
  | enter {reached stack order : List Node} {n m : Node} (some : v.mapping? n = some m)
      (new : m.id ∉ reached.map Node.id)
      (rest : MergeWalk v (reached ++ [m]) (v.merged m ++ stack) order) :
      MergeWalk v reached (n :: stack) order

def Merges (v : View) (m target : Node) : Prop :=
  ∃ source ∈ v.merged m, v.mapping? source = some target

def firstPair (v : View) (mappings : List Node) (key : String) : Option Pair :=
  mappings.findSome? fun m => (v.directPairs m).find? fun p => v.keyText p == key

variable {v : View} {values : List Node}

namespace MergeWalk

private theorem unique {reached stack order other : List Node} (h : MergeWalk v reached stack order)
    (h' : MergeWalk v reached stack other) : other = order := by
  induction h with
  | done reached =>
    cases h'
    rfl
  | nothing hn rest ih =>
    cases h' with
    | nothing hn' rest' => exact ih rest'
    | again hs' old' rest' => cases hn.symm.trans hs'
    | enter hs' new' rest' => cases hn.symm.trans hs'
  | again hs old rest ih =>
    cases h' with
    | nothing hn' rest' => cases hs.symm.trans hn'
    | again hs' old' rest' => exact ih rest'
    | enter hs' new' rest' =>
      obtain rfl := Option.some.inj (hs.symm.trans hs')
      exact absurd old new'
  | enter hs new rest ih =>
    cases h' with
    | nothing hn' rest' => cases hs.symm.trans hn'
    | again hs' old' rest' =>
      obtain rfl := Option.some.inj (hs.symm.trans hs')
      exact absurd old' new
    | enter hs' new' rest' =>
      obtain rfl := Option.some.inj (hs.symm.trans hs')
      exact ih rest'

/-- What is reached is merged, in however many steps, by what was reached or by the stack. -/
theorem sound (P : Node → Prop) (hP : ∀ m target, P m → Merges v m target → P target)
    {reached stack order : List Node} (h : MergeWalk v reached stack order)
    (hr : ∀ m ∈ reached, P m) (hs : ∀ n ∈ stack, ∀ m, v.mapping? n = some m → P m) :
    ∀ m ∈ order, P m := by
  induction h with
  | done reached => exact hr
  | nothing hn rest ih => exact ih hr fun n hn => hs n (List.mem_cons_of_mem _ hn)
  | again hm old rest ih => exact ih hr fun n hn => hs n (List.mem_cons_of_mem _ hn)
  | @enter reached stack order n m hm new rest ih =>
    have hPm : P m := hs n List.mem_cons_self m hm
    apply ih
    · intro m' hm'
      rcases List.mem_append.mp hm' with hm' | hm'
      · exact hr m' hm'
      · exact List.mem_singleton.mp hm' ▸ hPm
    · intro source hsource target ht
      rcases List.mem_append.mp hsource with hsource | hsource
      · exact hP m target hPm ⟨source, hsource, ht⟩
      · exact hs source (List.mem_cons_of_mem _ hsource) target ht

/-- The walk misses nothing: what a reached mapping merges is reached, unless it was on its way to the
stack already. -/
theorem complete {reached stack order : List Node} (h : MergeWalk v reached stack order)
    (hr : ∀ m ∈ reached, ∀ source ∈ v.merged m, ∀ target, v.mapping? source = some target →
      target.id ∈ reached.map Node.id ∨ source ∈ stack) :
    ∀ m ∈ order, ∀ target, Merges v m target → target.id ∈ order.map Node.id := by
  induction h with
  | done reached =>
    rintro m hm target ⟨source, hsource, ht⟩
    exact (hr m hm source hsource target ht).resolve_right List.not_mem_nil
  | @nothing reached stack order n hn rest ih =>
    refine ih fun m hm source hsource target ht => ?_
    rcases hr m hm source hsource target ht with h | h
    · exact .inl h
    · rcases List.mem_cons.mp h with rfl | h
      · cases hn.symm.trans ht
      · exact .inr h
  | @again reached stack order n m hm old rest ih =>
    refine ih fun m' hm' source hsource target ht => ?_
    rcases hr m' hm' source hsource target ht with h | h
    · exact .inl h
    · rcases List.mem_cons.mp h with rfl | h
      · obtain rfl := Option.some.inj (hm.symm.trans ht)
        exact .inl old
      · exact .inr h
  | @enter reached stack order n m hm new rest ih =>
    refine ih fun m' hm' source hsource target ht => ?_
    rcases List.mem_append.mp hm' with hm' | hm'
    · rcases hr m' hm' source hsource target ht with h | h
      · left
        rw [List.map_append]
        exact List.mem_append_left _ h
      · rcases List.mem_cons.mp h with rfl | h
        · obtain rfl := Option.some.inj (hm.symm.trans ht)
          left
          simp
        · exact .inr (List.mem_append_right _ h)
    · obtain rfl := List.mem_singleton.mp hm'
      exact .inr (List.mem_append_left _ hsource)

end MergeWalk

/-- What a visit that has entered some mappings, in this order, has collected. -/
structure Visited (v : View) (values reached : List Node) (s : Visit) : Prop where
  entered : s.entered = (reached.map Node.id).reverse
  nodup : (reached.map Node.id).Nodup
  inPool : reached ⊆ v.pool values
  keys : s.keys = s.pairs.map v.keyText
  noMerge : ∀ p ∈ s.pairs, v.keyText p ≠ mergeKey
  first : ∀ key, key ≠ mergeKey →
    s.pairs.find? (fun p => v.keyText p == key) = v.firstPair reached key

namespace Visited

theorem empty : Visited v values [] {} where
  entered := rfl
  nodup := List.nodup_nil
  inPool := List.nil_subset _
  keys := rfl
  noMerge := by simp
  first := by simp [firstPair]

theorem length_le {reached : List Node} {s : Visit} (h : Visited v values reached s) :
    reached.length ≤ (v.pool values).length :=
  ((List.Nodup.of_map _ h.nodup).subperm h.inPool).length_le

/-- The pairs that a mapping contributes: the keys that were met before it was entered are hidden, but
for the first mapping, where none was met. -/
def own (v : View) (isRoot : Bool) (keys : List String) (mapping : Node) : List Pair :=
  (v.directPairs mapping).filter fun p =>
    v.keyText p != mergeKey && (isRoot || !keys.contains (v.keyText p))

private theorem find?_own {isRoot : Bool} {keys : List String} {mapping : Node} {key : String}
    (hk : key ≠ mergeKey) (new : key ∉ keys) :
    (own v isRoot keys mapping).find? (fun p => v.keyText p == key) =
      (v.directPairs mapping).find? fun p => v.keyText p == key := by
  rw [own, List.find?_filter]
  congr 1
  funext p
  by_cases h : v.keyText p = key
  · simp [h, hk, new]
  · simp [h]

theorem enter {reached : List Node} {s : Visit} (h : Visited v values reached s) (isRoot : Bool)
    {m : Node} (hm : m ∈ v.pool values) (new : m.id ∉ reached.map Node.id) :
    Visited v values (reached ++ [m])
      ⟨s.keys ++ (own v isRoot s.keys m).map v.keyText, m.id :: s.entered,
        s.pairs ++ own v isRoot s.keys m⟩ where
  entered := by simp [h.entered]
  nodup := by
    rw [List.map_append]
    exact h.nodup.append (List.nodup_singleton _) (by simpa using new)
  inPool := List.append_subset.mpr ⟨h.inPool, by simpa using hm⟩
  keys := by simp [h.keys]
  noMerge := by
    intro p hp
    rcases List.mem_append.mp hp with hp | hp
    · exact h.noMerge p hp
    · have hp := (List.mem_filter.mp hp).2
      simp only [Bool.and_eq_true, bne_iff_ne] at hp
      exact hp.1
  first := by
    intro key hk
    rw [List.find?_append, h.first key hk, firstPair, firstPair, List.findSome?_append]
    cases hf : reached.findSome? fun m => (v.directPairs m).find? fun p => v.keyText p == key with
    | some p => rfl
    | none =>
      have hnone := (h.first key hk).trans hf
      have hkeys : key ∉ s.keys := by
        rw [h.keys]
        intro hmem
        obtain ⟨p, hp, rfl⟩ := List.mem_map.mp hmem
        simpa using List.find?_eq_none.mp hnone p hp
      simpa using find?_own hk hkeys

end Visited

/-- What a visit does from a state on, whatever is on the stack of the walk below. -/
def Continues (v : View) (values reached stack : List Node) (s : Visit) : Prop :=
  ∃ more, Visited v values (reached ++ more) s ∧
    ∀ below order, MergeWalk v (reached ++ more) below order →
      MergeWalk v reached (stack ++ below) order

private theorem Continues.fold (visit : Visit → Node → Visit) (bound : Nat) {stack : List Node}
    (step : ∀ reached s n, n ∈ stack → bound ≤ reached.length → Visited v values reached s →
      Continues v values reached [n] (visit s n))
    {reached : List Node} {s : Visit} (hb : bound ≤ reached.length) (h : Visited v values reached s) :
    Continues v values reached stack (stack.foldl visit s) := by
  induction stack generalizing reached s with
  | nil => exact ⟨[], by simpa using h, fun below order hw => by simpa using hw⟩
  | cons n stack ih =>
    obtain ⟨more, hv, hw⟩ := step reached s n List.mem_cons_self hb h
    obtain ⟨more', hv', hw'⟩ :=
      ih (fun reached s n hn => step reached s n (List.mem_cons_of_mem _ hn))
        (Nat.le_trans hb (by simp)) hv
    refine ⟨more ++ more', by simpa using hv', ?_⟩
    intro below order hrest
    exact hw _ _ (hw' below order (by simpa using hrest))

/-- A visit with enough fuel walks. -/
theorem visit_continues (fuel : Nat) (isRoot : Bool) {n : Node} (hn : n ∈ v.pool values)
    {reached : List Node} {s : Visit} (hf : (v.pool values).length < fuel + reached.length)
    (h : Visited v values reached s) :
    Continues v values reached [n] (v.visit fuel isRoot n s) := by
  induction fuel generalizing isRoot n reached s with
  | zero =>
    have := h.length_le
    omega
  | succ fuel ih =>
    rw [visit]
    cases hm : v.mapping? n with
    | none =>
      refine ⟨[], by simpa using h, ?_⟩
      intro below order hw
      exact .nothing hm (by simpa using hw)
    | some m =>
      have hmem : s.entered.contains m.id = true ↔ m.id ∈ reached.map Node.id := by
        simp [h.entered]
      by_cases old : m.id ∈ reached.map Node.id
      · simp only [hmem.mpr old, if_true]
        refine ⟨[], by simpa using h, ?_⟩
        intro below order hw
        exact .again hm old (by simpa using hw)
      · simp only [mt hmem.mp old]
        have hpool := reached_mem_pool hn (reaches_mapping? hm)
        have hentered := h.enter isRoot hpool old
        have hstep : ∀ reached' s' source, source ∈ v.merged m →
            reached.length + 1 ≤ reached'.length → Visited v values reached' s' →
            Continues v values reached' [source] (v.visit fuel false source s') := by
          intro reached' s' source hsource hb h'
          exact ih false (reached_mem_pool hpool (reaches_merged hsource)) (by omega) h'
        obtain ⟨more, hv, hw⟩ := Continues.fold (fun s source => v.visit fuel false source s)
          (reached.length + 1) hstep (by simp) hentered
        refine ⟨m :: more, by simpa [Visited.own] using hv, ?_⟩
        intro below order hrest
        exact .enter hm old (hw below order (by simpa using hrest))

/-- The pairs of a value come from the walk through its merges. -/
theorem pairs_visited (v : View) (n : Node) :
    ∃ order, MergeWalk v [] [n] order ∧
      Visited v [n] order (v.visit (n.size + v.size + 1) true n {}) := by
  have hn : n ∈ v.pool [n] := start_mem_pool List.mem_cons_self
  have hlength : (v.pool [n]).length < n.size + v.size + 1 + ([] : List Node).length := by
    simp [length_pool]
  obtain ⟨more, hv, hw⟩ := visit_continues (n.size + v.size + 1) true hn hlength Visited.empty
  exact ⟨more, by simpa using hw [] more (.done more), by simpa using hv⟩

@[simp] theorem firstPair_eq_none_iff {mappings : List Node} {key : String} :
    v.firstPair mappings key = none ↔
      ∀ m ∈ mappings, ∀ p ∈ v.directPairs m, v.keyText p ≠ key := by
  simp [firstPair, List.findSome?_eq_none_iff]

/-- The keys of the pairs are those of the mappings that the walk reaches, other than the key of merges. -/
theorem Visited.mem_keys {reached : List Node} {s : Visit} (h : Visited v values reached s)
    {key : String} : key ∈ s.pairs.map v.keyText ↔
      key ≠ mergeKey ∧ ∃ m ∈ reached, ∃ p ∈ v.directPairs m, v.keyText p = key := by
  by_cases hk : key = mergeKey
  · subst hk
    simpa using fun p hp => h.noMerge p hp
  · have hfirst := h.first key hk
    constructor
    · intro hmem
      obtain ⟨p, hp, rfl⟩ := List.mem_map.mp hmem
      refine ⟨hk, ?_⟩
      by_contra hnone
      have hnone : v.firstPair reached (v.keyText p) = none := by
        simpa using hnone
      simpa using List.find?_eq_none.mp (hfirst.trans hnone) p hp
    · rintro ⟨-, m, hm, p, hp, rfl⟩
      cases hf : s.pairs.find? fun q => v.keyText q == v.keyText p with
      | none => exact absurd rfl (firstPair_eq_none_iff.mp (hfirst ▸ hf) m hm p hp)
      | some q =>
        have hq : v.keyText q = v.keyText p := by simpa using List.find?_some hf
        exact hq ▸ List.mem_map_of_mem (List.mem_of_find?_eq_some hf)

/-- The pairs of a value follow the one depth-first walk through its merges, which reaches what is merged
in any number of steps, each mapping once. A key means the first pair with it in the first mapping of the
walk that has one; it is absent just where no mapping has one, and the keys are those of all mappings
but for the key of merges. Mappings are told apart by their numbers. -/
theorem pairs_follow_merge_walk (v : View) (n : Node) :
    ∃ order, MergeWalk v [] [n] order ∧ (∀ other, MergeWalk v [] [n] other → other = order) ∧
      (order.map Node.id).Nodup ∧
      (∀ m ∈ order, ∃ root, v.mapping? n = some root ∧ ReflTransGen (Merges v) root m) ∧
      (∀ m ∈ order, ∀ target, Merges v m target → target.id ∈ order.map Node.id) ∧
      (∀ key, key ≠ mergeKey → v.find? n key = v.firstPair order key) ∧
      (∀ key, key ≠ mergeKey → (v.find? n key = none ↔
        ∀ m ∈ order, ∀ p ∈ v.directPairs m, v.keyText p ≠ key)) ∧
      ∀ key, key ∈ (v.pairs n).map v.keyText ↔
        key ≠ mergeKey ∧ ∃ m ∈ order, ∃ p ∈ v.directPairs m, v.keyText p = key := by
  obtain ⟨order, hwalk, hvisited⟩ := pairs_visited v n
  have hfind : ∀ key, key ≠ mergeKey → v.find? n key = v.firstPair order key :=
    fun key hk => hvisited.first key hk
  refine ⟨order, hwalk, fun other => hwalk.unique, hvisited.nodup, ?_, ?_, hfind, ?_,
    fun key => hvisited.mem_keys⟩
  · apply hwalk.sound (fun m => ∃ root, v.mapping? n = some root ∧ ReflTransGen (Merges v) root m)
    · rintro m target ⟨root, hroot, hm⟩ ht
      exact ⟨root, hroot, hm.tail ht⟩
    · simp
    · intro n' hn' m hm
      obtain rfl := List.mem_singleton.mp hn'
      exact ⟨m, hm, .refl⟩
  · exact hwalk.complete (by simp)
  · intro key hk
    rw [hfind key hk, firstPair_eq_none_iff]

end

variable {v : View}

/-- If two pairs have one key, the first stands before the second in one mapping. -/
def Beside (v : View) (p q : Pair) : Prop :=
  v.keyText p = v.keyText q → ∃ mapping, [p, q].Sublist (v.directPairs mapping)

/-- In the state of a visit, pairs with one key stand in one mapping. -/
structure Unhidden (v : View) (s : Visit) : Prop where
  keys : s.keys = s.pairs.map v.keyText
  beside : s.pairs.Pairwise (Beside v)

namespace Unhidden

private theorem beside_own (isRoot : Bool) (keys : List String) (mapping : Node) :
    (Visited.own v isRoot keys mapping).Pairwise (Beside v) :=
  List.pairwise_iff_forall_sublist.mpr fun h _ => ⟨mapping, h.trans List.filter_sublist⟩

private theorem enter {s : Visit} (h : Unhidden v s) {isRoot : Bool} (hroot : isRoot = true → s.keys = []) (m : Node) :
    Unhidden v ⟨s.keys ++ (Visited.own v isRoot s.keys m).map v.keyText, m.id :: s.entered,
      s.pairs ++ Visited.own v isRoot s.keys m⟩ where
  keys := by simp [h.keys]
  beside := by
    refine List.pairwise_append.mpr ⟨h.beside, beside_own isRoot s.keys m, fun p hp q hq heq => ?_⟩
    -- The key of `p` was met before, so a mapping that contributes it again is the first one, before which none was.
    have hmet : v.keyText q ∈ s.keys := by
      rw [h.keys, ← heq]
      exact List.mem_map_of_mem hp
    have hq := (List.mem_filter.mp hq).2
    cases isRoot with
    | true => simp [hroot rfl] at hmet
    | false => simp [hmet] at hq

private theorem foldl {visit : Visit → Node → Visit} (step : ∀ s n, Unhidden v s → Unhidden v (visit s n))
    (stack : List Node) {s : Visit} (h : Unhidden v s) : Unhidden v (stack.foldl visit s) := by
  induction stack generalizing s with
  | nil => exact h
  | cons n stack ih => exact ih (step s n h)

private theorem visit (fuel : Nat) (isRoot : Bool) (n : Node) {s : Visit} (h : Unhidden v s)
    (hroot : isRoot = true → s.keys = []) : Unhidden v (v.visit fuel isRoot n s) := by
  induction fuel generalizing isRoot n s with
  | zero => exact h
  | succ fuel ih =>
    rw [View.visit]
    cases v.mapping? n with
    | none => exact h
    | some m =>
      dsimp only
      split
      · exact h
      · exact foldl (fun s source hs => ih false source hs (by simp)) _ (h.enter hroot m)

end Unhidden

/-- Pairs of a value that have one key are written in one mapping, in the same order. -/
theorem pairwise_beside_pairs (v : View) (n : Node) : (v.pairs n).Pairwise (Beside v) :=
  (Unhidden.visit _ true n ⟨rfl, List.Pairwise.nil⟩ fun _ => rfl).beside

end PipelineLint.Yaml.View
