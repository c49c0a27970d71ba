import PipelineLint.Proofs.Yaml.Merge
import PipelineLint.Proofs.Yaml.Numbering

/-! # Merges of one step

Where no mapping that is merged merges anything itself, the walk through merges is one step long: a key means the
pair of the mapping itself, or else that of the first merged mapping with the key.

Decoding merges one step, whatever the merged mappings merge themselves. A merge key in one of those is a name like all
others there.
-/

namespace PipelineLint.Yaml.View

variable {v : View}

def hasMerge (v : View) (n : Node) : Bool := (v.directPairs n).any fun p => v.keyText p == mergeKey

/-- The mappings that a value merges have no merges themselves. -/
def MergesPlain (v : View) (n : Node) : Prop :=
  ∀ m, v.mapping? n = some m → ∀ source ∈ v.merged m, v.hasMerge source = false

private theorem content?_of_isMapping {m : Node} (h : m.kind.isMapping) : v.content? m = some m := by
  rw [content?, contentWithin]
  cases hkind : m.kind <;> first | rfl | (rw [hkind] at h; cases h)

/-- A mapping holds itself. -/
theorem mapping?_self {n m : Node} (h : v.mapping? n = some m) : v.mapping? m = some m := by
  have hkind : m.kind.isMapping := (Option.filter_eq_some_iff.mp h).2
  rw [mapping?, content?_of_isMapping hkind, Option.filter_some, hkind]
  rfl

private theorem mapping?_of_mem_mergeSources {value source : Node} (h : source ∈ v.mergeSources value) :
    v.mapping? source = some source := by
  rw [mergeSources] at h
  split at h
  · rename_i m hm
    rw [List.mem_singleton.mp h]
    exact mapping?_self hm
  · obtain ⟨i, -, hi⟩ := List.mem_filterMap.mp h
    obtain ⟨target, -, htarget⟩ := Option.bind_eq_some_iff.mp hi
    exact mapping?_self htarget

private theorem mapping?_of_mem_merged {m source : Node} (h : source ∈ v.merged m) :
    v.mapping? source = some source := by
  obtain ⟨p, -, hp⟩ := List.mem_flatMap.mp h
  cases hvalue : p.value with
  | none => simp [hvalue] at hp
  | some value => exact mapping?_of_mem_mergeSources (by simpa [hvalue] using hp)

theorem merged_eq_nil {m : Node} (h : v.hasMerge m = false) : v.merged m = [] := by
  have hnone : ((v.directPairs m).filter fun p => v.keyText p == mergeKey) = [] :=
    List.filter_eq_nil_iff.mpr (List.any_eq_false.mp h)
  rw [merged, hnone]
  rfl

theorem firstPair_append (ms ns : List Node) (key : String) :
    v.firstPair (ms ++ ns) key = (v.firstPair ms key).or (v.firstPair ns key) :=
  List.findSome?_append

/-- A walk that is still to enter mappings without merges enters them in order. -/
theorem MergeWalk.firstPair_eq {reached stack order : List Node} (h : MergeWalk v reached stack order)
    (hstack : ∀ n ∈ stack, v.mapping? n = some n ∧ v.merged n = [])
    (hid : ∀ a ∈ reached ++ stack, ∀ b ∈ reached ++ stack, a.id = b.id → a = b) (key : String) :
    v.firstPair order key = v.firstPair (reached ++ stack) key := by
  induction h with
  | done reached => rw [List.append_nil]
  | @nothing reached stack order n hn rest ih =>
    exact absurd (hn.symm.trans (hstack n List.mem_cons_self).1) (by simp)
  | @again reached stack order n m hm old rest ih =>
    obtain rfl := Option.some.inj (hm.symm.trans (hstack n List.mem_cons_self).1)
    obtain ⟨r, hr, hsame⟩ := List.mem_map.mp old
    obtain rfl : r = m := hid r (by simp [hr]) m (by simp) hsame
    have hrest := ih (fun n hn => hstack n (List.mem_cons_of_mem _ hn))
      (fun a ha b hb => hid a (by grind) b (by grind))
    have hsplit : reached ++ r :: stack = reached ++ ([r] ++ stack) := rfl
    rw [hrest, hsplit, firstPair_append, firstPair_append, firstPair_append]
    -- The mapping was entered before, so it has no key that those before it lack.
    cases hfirst : v.firstPair reached key with
    | some p => rfl
    | none =>
      have hnone : v.firstPair [r] key = none :=
        firstPair_eq_none_iff.mpr fun m hm => firstPair_eq_none_iff.mp hfirst m (List.mem_singleton.mp hm ▸ hr)
      rw [hnone]
      rfl
  | @enter reached stack order n m hm new rest ih =>
    obtain rfl := Option.some.inj (hm.symm.trans (hstack n List.mem_cons_self).1)
    have hnone : v.merged m = [] := (hstack m List.mem_cons_self).2
    rw [hnone, List.nil_append] at ih
    have hrest := ih (fun n hn => hstack n (List.mem_cons_of_mem _ hn)) (by simpa using hid)
    simpa using hrest

/-- A key other than that of merges means the pair of the mapping itself, or that of the first mapping it merges. -/
theorem find?_of_mergesPlain {n m : Node} (hm : v.mapping? n = some m) (hplain : v.MergesPlain n)
    (hid : ∀ a b, v.Reaches n a → v.Reaches n b → a.id = b.id → a = b) {key : String} (hkey : key ≠ mergeKey) :
    v.find? n key = v.firstPair (m :: v.merged m) key := by
  obtain ⟨order, hwalk, hvisited⟩ := pairs_visited v n
  have hfind : v.find? n key = v.firstPair order key := hvisited.first key hkey
  rw [hfind]
  cases hwalk with
  | nothing hn rest => cases hn.symm.trans hm
  | again hm' old rest => cases old
  | enter hm' new rest =>
    obtain rfl := Option.some.inj (hm.symm.trans hm')
    rw [List.append_nil] at rest
    have hreach : ∀ a ∈ [] ++ [m] ++ v.merged m, v.Reaches n a := by
      intro a ha
      rcases List.mem_cons.mp ha with rfl | ha
      · exact reaches_mapping? hm
      · exact (reaches_mapping? hm).trans (reaches_merged ha)
    refine rest.firstPair_eq (fun source hsource => ?_) (fun a ha b hb => ?_) key
    · exact ⟨mapping?_of_mem_merged hsource, merged_eq_nil (hplain m hm source hsource)⟩
    · exact hid a b (hreach a ha) (hreach b hb)

/-- The key of merges is no key of the pairs of a value. -/
theorem mergeKey_notMem_pairs (v : View) (n : Node) : mergeKey ∉ (v.pairs n).map v.keyText := by
  obtain ⟨order, -, hvisited⟩ := pairs_visited v n
  intro hmem
  obtain ⟨p, hp, hkey⟩ := List.mem_map.mp hmem
  exact hvisited.noMerge p hp hkey

theorem isSome_find?_iff {n : Node} {key : String} :
    (v.find? n key).isSome ↔ key ∈ (v.pairs n).map v.keyText := by
  simp [find?]

theorem exists_mapping?_of_find? {n : Node} {key : String} {p : Pair} (h : v.find? n key = some p) :
    ∃ m, v.mapping? n = some m := by
  cases hm : v.mapping? n with
  | some m => exact ⟨m, rfl⟩
  | none =>
    have hnone : v.pairs n = [] := by
      rw [pairs, visit, hm]
    rw [find?, hnone] at h
    cases h

theorem find?_mergeKey (v : View) (n : Node) : v.find? n mergeKey = none := by
  rw [← Option.not_isSome_iff_eq_none, isSome_find?_iff]
  exact mergeKey_notMem_pairs v n

/-- The pair whose value is decoded for a name of a mapping: that of the mapping itself, or else that of the first
mapping it merges. -/
def taken? (v : View) (n : Node) (name : String) : Option Pair :=
  (v.mapping? n).bind fun m => v.firstPair (if name = mergeKey then v.merged m else m :: v.merged m) name

theorem firstPair_cons (m : Node) (ms : List Node) (key : String) :
    v.firstPair (m :: ms) key = ((v.directPairs m).find? fun p => v.keyText p == key).or (v.firstPair ms key) := by
  rw [firstPair, List.findSome?_cons]
  cases (v.directPairs m).find? fun p => v.keyText p == key <;> rfl

/-- A merge key is decoded as a name just where a merged mapping has merges of its own. -/
theorem taken?_mergeKey_eq_none_iff {n : Node} : v.taken? n mergeKey = none ↔ v.MergesPlain n := by
  rw [taken?, Option.bind_eq_none_iff, MergesPlain]
  refine forall₂_congr fun m _ => ?_
  rw [if_pos rfl, firstPair_eq_none_iff]
  refine forall₂_congr fun source _ => ?_
  simp [hasMerge, List.any_eq_false]

/-- Where merges are plain, the pairs that are decoded are those that count. -/
theorem taken?_of_mergesPlain {n : Node} (hplain : v.MergesPlain n)
    (hid : ∀ a b, v.Reaches n a → v.Reaches n b → a.id = b.id → a = b) (name : String) :
    v.taken? n name = v.find? n name := by
  by_cases hname : name = mergeKey
  · rw [hname, find?_mergeKey]
    exact taken?_mergeKey_eq_none_iff.mpr hplain
  · cases hm : v.mapping? n with
    | none =>
      cases hfind : v.find? n name with
      | none => rw [taken?, hm, Option.bind_none]
      | some p =>
        obtain ⟨m, hmapping⟩ := exists_mapping?_of_find? hfind
        cases hm.symm.trans hmapping
    | some m => rw [taken?, hm, Option.bind_some, if_neg hname, find?_of_mergesPlain hm hplain hid hname]

theorem below_of_taken? {n : Node} {name : String} {p : Pair} (h : v.taken? n name = some p) : v.PairBelow n p := by
  obtain ⟨m, hm, hfirst⟩ := Option.bind_eq_some_iff.mp h
  obtain ⟨source, hsource, hp⟩ := List.exists_of_findSome?_eq_some hfirst
  have hreach : v.Reaches m source := by
    split at hsource
    · exact reaches_merged hsource
    · rcases List.mem_cons.mp hsource with rfl | hsource
      · exact .refl
      · exact reaches_merged hsource
  exact (below_of_mem_directPairs (List.mem_of_find?_eq_some hp)).above ((reaches_mapping? hm).trans hreach)

end PipelineLint.Yaml.View
