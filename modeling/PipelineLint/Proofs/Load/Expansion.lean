import PipelineLint.Concrete.Grammar.Stream
import PipelineLint.Concrete.Loader.Decode
import PipelineLint.Load.Decode
import PipelineLint.Proofs.Load.Merge
import PipelineLint.Proofs.Related
import PipelineLint.Proofs.Results
import PipelineLint.Proofs.Yaml.PlainMerges
import Mathlib.Data.List.Pairwise
import Mathlib.Tactic.SplitIfs

/-! # Two ways to merge

A view merges while it walks through the tree, and decoding merges the value that was read from the text. Both start
from the same mappings: `expands` says that a value is what a node of the tree stands for before any merge. They agree
about a mapping just if no mapping that it merges has merges of its own: `agrees_iff_mergesPlain`. What the library does
that decoding relies on is said by `Loader.IsStandard` and `Loader.LoadsFrom`.
-/

namespace PipelineLint.Load

open Yaml

namespace Value

mutual
/-- Every mapping in a value has each of its keys once. -/
def Distinct : Value → Prop
  | .list items => DistinctItems items
  | .map entries => entries.Pairwise (fun e f => e.1.same f.1 = false) ∧ DistinctEntries entries
  | .tagged _ value => Distinct value
  | _ => True
/-- Every mapping in the items has each of its keys once. -/
def DistinctItems : List Value → Prop
  | [] => True
  | value :: values => Distinct value ∧ DistinctItems values
/-- Every mapping in the values of the entries has each of its keys once. -/
def DistinctEntries : List (Value × Value) → Prop
  | [] => True
  | (_, value) :: entries => Distinct value ∧ DistinctEntries entries
end

theorem distinctItems_iff {items : List Value} : DistinctItems items ↔ ∀ v ∈ items, Distinct v := by
  induction items with
  | nil => simp [DistinctItems]
  | cons v items ih => simp [DistinctItems, ih]

theorem distinctEntries_iff {entries : List (Value × Value)} :
    DistinctEntries entries ↔ ∀ e ∈ entries, Distinct e.2 := by
  induction entries with
  | nil => simp [DistinctEntries]
  | cons e entries ih => simp [DistinctEntries, ih]

mutual
def decideDistinct : (value : Value) → Decidable (Distinct value)
  | .list items => decideDistinctItems items
  | .map entries => @instDecidableAnd _ _ inferInstance (decideDistinctEntries entries)
  | .tagged _ value => decideDistinct value
  | .null | .bool _ | .integer _ | .float _ | .text _ => isTrue trivial
def decideDistinctItems : (items : List Value) → Decidable (DistinctItems items)
  | [] => isTrue trivial
  | value :: values => @instDecidableAnd _ _ (decideDistinct value) (decideDistinctItems values)
def decideDistinctEntries : (entries : List (Value × Value)) → Decidable (DistinctEntries entries)
  | [] => isTrue trivial
  | (_, value) :: entries => @instDecidableAnd _ _ (decideDistinct value) (decideDistinctEntries entries)
end

instance (value : Value) : Decidable value.Distinct := decideDistinct value

def isName (name : String) : Value → Bool
  | .text cs => cs == name.toList
  | _ => false

def isNull : Value → Bool
  | .null => true
  | _ => false

section

variable (v : View) (isRead : Node → Value → Bool)

mutual
/-- A value is what a node stands for, with aliases followed and merge keys as they are written. `isRead` says what a
scalar is read as. -/
def expands : Value → Node → Bool
  | .map entries, n => match v.mapping? n with
    | some m => expandsPairs entries (v.directPairs m)
    | none => false
  | .list items, n => (v.mapping? n).isNone && (v.sequence? n).isSome && expandsItems items (v.items n)
  | .tagged _ _, _ => false
  | value, n => (v.mapping? n).isNone && (v.sequence? n).isNone && isRead n value
def expandsPairs : List (Value × Value) → List Pair → Bool
  | [], [] => true
  | (key, value) :: entries, p :: ps =>
    isName (v.keyText p) key && (match p.value with
      | some n => expands value n
      | none => isNull value) && expandsPairs entries ps
  | _, _ => false
def expandsItems : List Value → List Item → Bool
  | [], [] => true
  | value :: values, i :: is =>
    (match i.value with
      | some n => expands value n
      | none => isNull value) && expandsItems values is
  | _, _ => false
end

/-- A value is what a node stands for, if there is one, and nothing otherwise. -/
def StandsFor (value : Value) (n? : Option Node) : Prop :=
  match n? with
  | some n => expands v isRead value n = true
  | none => value = .null

end

variable {v : View} {isRead : Node → Value → Bool}

theorem isName_iff {name : String} {key : Value} : isName name key = true ↔ key = .text name.toList := by
  cases key <;> simp [isName]

theorem isNull_iff {value : Value} : isNull value = true ↔ value = .null := by
  cases value <;> simp [isNull]

theorem standsFor_none {value : Value} : StandsFor v isRead value none ↔ value = .null := Iff.rfl

theorem standsFor_some {value : Value} {n : Node} :
    StandsFor v isRead value (some n) ↔ expands v isRead value n = true := Iff.rfl

theorem standsFor_iff {value : Value} {n? : Option Node} :
    (match n? with
      | some n => expands v isRead value n
      | none => isNull value) = true ↔ StandsFor v isRead value n? := by
  cases n? with
  | none => exact isNull_iff
  | some n => exact Iff.rfl

theorem expandsPairs_iff {entries : List (Value × Value)} {ps : List Pair} :
    expandsPairs v isRead entries ps = true ↔
      List.Forall₂ (fun e p => e.1 = .text (v.keyText p).toList ∧ StandsFor v isRead e.2 p.value) entries ps := by
  induction entries generalizing ps with
  | nil => cases ps <;> simp [expandsPairs]
  | cons e entries ih =>
    cases ps with
    | nil => simp [expandsPairs]
    | cons p ps =>
      rw [expandsPairs, Bool.and_eq_true, Bool.and_eq_true, isName_iff, standsFor_iff, ih, List.forall₂_cons]

theorem expandsItems_iff {items : List Value} {is : List Item} :
    expandsItems v isRead items is = true ↔
      List.Forall₂ (fun value i => StandsFor v isRead value i.value) items is := by
  induction items generalizing is with
  | nil => cases is <;> simp [expandsItems]
  | cons value items ih =>
    cases is with
    | nil => simp [expandsItems]
    | cons i is => rw [expandsItems, Bool.and_eq_true, standsFor_iff, ih, List.forall₂_cons]

/-- What a mapping stands for is a mapping with entries for its pairs. -/
theorem exists_of_expands_mapping {value : Value} {n m : Node} (h : expands v isRead value n = true)
    (hm : v.mapping? n = some m) :
    ∃ entries, value = .map entries ∧ expandsPairs v isRead entries (v.directPairs m) = true := by
  cases value with
  | map entries =>
    rw [expands, hm] at h
    exact ⟨entries, rfl, h⟩
  | tagged tag value => simp [expands] at h
  | _ => simp [expands, hm] at h

theorem mapping?_of_expands_map {entries : List (Value × Value)} {n : Node}
    (h : expands v isRead (.map entries) n = true) :
    ∃ m, v.mapping? n = some m ∧ expandsPairs v isRead entries (v.directPairs m) = true := by
  rw [expands] at h
  cases hm : v.mapping? n with
  | none => simp [hm] at h
  | some m => exact ⟨m, rfl, by simpa [hm] using h⟩

section Pairs

variable {entries : List (Value × Value)} {m : Node}

/-- A name means in entries what the pair with the key stands for. -/
theorem rel_ofName? {ps : List Pair} (h : expandsPairs v isRead entries ps = true) (name : String) :
    Option.Rel (fun value p => StandsFor v isRead value p.value) (ofName? name entries)
      (ps.find? fun p => v.keyText p == name) :=
  rel_ofName?_find? (expandsPairs_iff.mp h) name

theorem texts_of_expandsPairs {ps : List Pair} (h : expandsPairs v isRead entries ps = true) :
    ∀ e ∈ entries, ∃ cs, e.1 = .text cs := by
  have hpairs := expandsPairs_iff.mp h
  clear h
  induction hpairs with
  | nil => exact fun e he => nomatch he
  | cons hfirst _ ih => exact List.forall_mem_cons.mpr ⟨⟨_, hfirst.1⟩, ih⟩

private theorem named_of_expandsPairs {ps : List Pair} (h : expandsPairs v isRead entries ps = true)
    (hdistinct : (Value.map entries).Distinct) : Named entries := by
  have htexts := texts_of_expandsPairs h
  refine ⟨htexts, ?_⟩
  rw [List.Nodup, List.pairwise_map]
  refine hdistinct.1.imp_of_mem fun {e f} he hf hdifferent hsame => ?_
  obtain ⟨cs, hkey⟩ := htexts f hf
  rw [hsame, hkey, same_text.mpr rfl] at hdifferent
  cases hdifferent

end Pairs

section Merges

/-- The entries of a brought-in mapping are those of a merged one. -/
def Brings (v : View) (isRead : Node → Value → Bool) (more : List (Value × Value)) (source : Node) : Prop :=
  expandsPairs v isRead more (v.directPairs source) = true

/-- A value is a mapping just where its node is one, with entries for its pairs. -/
theorem rel_entries? {value : Value} {n? : Option Node} (h : StandsFor v isRead value n?) :
    Option.Rel (Brings v isRead) (entries? value) (n?.bind v.mapping?) := by
  cases n? with
  | none =>
    rw [standsFor_none] at h
    rw [h]
    exact .none
  | some n =>
    rw [standsFor_some] at h
    rw [Option.bind_some]
    cases hm : v.mapping? n with
    | some m =>
      obtain ⟨entries, rfl, hpairs⟩ := exists_of_expands_mapping h hm
      exact .some hpairs
    | none =>
      cases value with
      | map entries =>
        obtain ⟨m, hm', -⟩ := mapping?_of_expands_map h
        exact absurd (hm.symm.trans hm') nofun
      | _ => exact .none

/-- A value brings in what its node merges. -/
theorem forall₂_mergeSources {value : Value} {n : Node} (h : expands v isRead value n = true) :
    List.Forall₂ (Brings v isRead) (broughtBy value) (v.mergeSources n) := by
  cases value with
  | map more =>
    obtain ⟨m, hm, hpairs⟩ := mapping?_of_expands_map h
    rw [View.mergeSources, hm]
    exact .cons hpairs .nil
  | list items =>
    simp only [expands, Bool.and_eq_true, Option.isNone_iff_eq_none] at h
    obtain ⟨⟨hmapping, -⟩, hitems⟩ := h
    rw [View.mergeSources, hmapping, broughtBy]
    exact List.rel_filterMap (fun _ _ hitem => rel_entries? hitem) (expandsItems_iff.mp hitems)
  | tagged tag value => simp [expands] at h
  | _ =>
    simp only [expands, Bool.and_eq_true, Option.isNone_iff_eq_none] at h
    have hitems : v.items n = [] := by rw [View.items, h.1.2]
    rw [View.mergeSources, h.1.1, hitems]
    exact .nil

private theorem filter_eq_toList_find? {ps : List Pair} {name : String} (h : (ps.map v.keyText).Nodup) :
    ps.filter (fun p => v.keyText p == name) = (ps.find? fun p => v.keyText p == name).toList := by
  induction ps with
  | nil => rfl
  | cons p ps ih =>
    obtain ⟨hnew, hrest⟩ := List.nodup_cons.mp h
    by_cases hname : v.keyText p = name
    · have hnone : ps.filter (fun p => v.keyText p == name) = [] := by
        rw [List.filter_eq_nil_iff]
        intro q hq hsame
        exact hnew (hname ▸ beq_iff_eq.mp hsame ▸ List.mem_map_of_mem hq)
      rw [List.filter_cons_of_pos (by simpa using hname), List.find?_cons_of_pos (by simpa using hname), hnone]
      rfl
    · rw [List.filter_cons_of_neg (by simpa using hname), List.find?_cons_of_neg (by simpa using hname), ih hrest]

/-- The merge key of a mapping brings in what the mapping merges. -/
theorem forall₂_merged {entries : List (Value × Value)} {m : Node}
    (h : expandsPairs v isRead entries (v.directPairs m) = true) (hnamed : Named entries) :
    List.Forall₂ (Brings v isRead) (broughtIn entries) (v.merged m) := by
  have hname : Yaml.mergeKey = mergeName := rfl
  have hnodup : ((v.directPairs m).map v.keyText).Nodup :=
    hnamed.nodup_of_forall₂ ((expandsPairs_iff.mp h).imp fun _ _ hpair => hpair.1)
  rw [View.merged, filter_eq_toList_find? hnodup, broughtIn, hname]
  have hrel := rel_ofName? h mergeName
  revert hrel
  generalize ofName? mergeName entries = value?
  generalize (v.directPairs m).find? (fun p => v.keyText p == mergeName) = p?
  intro hrel
  cases hrel with
  | none => exact .nil
  | @some value p hvalue =>
    simp only [Option.map_some, Option.getD_some, Option.toList_some, List.flatMap_cons, List.flatMap_nil,
      List.append_nil]
    cases hp : p.value with
    | none =>
      rw [hp, standsFor_none] at hvalue
      rw [hvalue]
      exact .nil
    | some n =>
      rw [hp, standsFor_some] at hvalue
      exact forall₂_mergeSources hvalue

/-- A name means in the first of some mappings what the first pair with the key stands for. -/
theorem rel_findSome?_ofName? {sources : List (List (Value × Value))} {ms : List Node}
    (h : List.Forall₂ (Brings v isRead) sources ms) (name : String) :
    Option.Rel (fun value p => StandsFor v isRead value p.value) (sources.findSome? (ofName? name))
      (v.firstPair ms name) :=
  rel_findSome? h fun _ _ hbrings => rel_ofName? hbrings name

end Merges

section Meaning

variable {entries merged : List (Value × Value)} {n m : Node}

/-- A name means in the merged mapping what the pair that is decoded for it stands for. -/
theorem rel_ofName?_taken? (hpairs : expandsPairs v isRead entries (v.directPairs m) = true) (hnamed : Named entries)
    (hmerged : mergeEntries entries = .ok merged) (hm : v.mapping? n = some m) (name : String) :
    Option.Rel (fun value p => StandsFor v isRead value p.value) (ofName? name merged) (v.taken? n name) := by
  have hsources := rel_findSome?_ofName? (forall₂_merged hpairs hnamed) name
  have hkey : name = Yaml.mergeKey ↔ name = mergeName := Iff.rfl
  rw [hnamed.ofName?_mergeEntries hmerged, View.taken?, hm, Option.bind_some]
  by_cases hname : name = mergeName
  · rw [if_pos hname, if_pos (hkey.mpr hname)]
    exact hsources
  · rw [if_neg hname, if_neg (mt hkey.mp hname), View.firstPair_cons]
    exact rel_or (rel_ofName? hpairs name) hsources

theorem exists_of_mem_left {α β : Type} {r : α → β → Prop} {as : List α} {bs : List β} (h : List.Forall₂ r as bs)
    {a : α} (ha : a ∈ as) : ∃ b, r a b := by
  induction h with
  | nil => cases ha
  | cons hfirst _ ih =>
    rcases List.mem_cons.mp ha with rfl | ha
    · exact ⟨_, hfirst⟩
    · exact ih ha

private theorem distinct_of_ofName? {name : String} {value : Value} (hdistinct : (Value.map entries).Distinct)
    (h : ofName? name entries = some value) : value.Distinct :=
  distinctEntries_iff.mp hdistinct.2 _ (mem_of_ofName?_eq_some h)

private theorem distinct_of_mem_broughtIn (hdistinct : (Value.map entries).Distinct) {more : List (Value × Value)}
    (hmore : more ∈ broughtIn entries) : (Value.map more).Distinct := by
  rw [broughtIn] at hmore
  cases hvalue : ofName? mergeName entries with
  | none => simp [hvalue] at hmore
  | some value =>
    have hbelow := distinct_of_ofName? hdistinct hvalue
    replace hmore : more ∈ broughtBy value := by simpa [hvalue] using hmore
    cases value with
    | map other => rwa [List.mem_singleton.mp hmore]
    | list items =>
      obtain ⟨item, hitem, hitems⟩ := List.mem_filterMap.mp hmore
      have hitem := distinctItems_iff.mp hbelow item hitem
      cases item with
      | map inner =>
        obtain rfl := Option.some.inj hitems
        exact hitem
      | _ => cases hitems
    | _ => cases hmore

theorem distinct_of_mergeEntries (hdistinct : (Value.map entries).Distinct)
    (hmerged : mergeEntries entries = .ok merged) {name : String} {value : Value}
    (h : ofName? name merged = some value) : value.Distinct := by
  rcases mem_of_mem_mergeEntries hmerged (mem_of_ofName?_eq_some h) with hmem | ⟨more, hmore, hmem⟩
  · exact distinctEntries_iff.mp hdistinct.2 _ hmem
  · exact distinctEntries_iff.mp (distinct_of_mem_broughtIn hdistinct hmore).2 _ hmem

end Meaning

end Value

section

variable (v : View) (isRead : Node → Value → Bool)

/-- Data that is decoded from what a node stands for, or from nothing. -/
def ComesFrom (n? : Option Node) (d : Data) : Prop :=
  ∃ value, Value.StandsFor v isRead value n? ∧ value.Distinct ∧ value.Decodes d

/-- The data at a node is right: if the node is a mapping, the data has the keys of its pairs, and under each key the
data of the pair that counts. -/
def Agrees (n : Node) (d : Data) : Prop :=
  ∀ m, v.mapping? n = some m → ∃ entries, d = .map entries ∧
    (∀ key, key ∈ entries.map Prod.fst ↔ key ∈ (v.pairs n).map v.keyText) ∧
    ∀ key p, v.find? n key = some p → ∃ below, Data.lookup? entries key = some below ∧
      ComesFrom v isRead p.value below

/-- Keys and indices lead from a node and its data to a node and its data. -/
inductive Reached (top : Node) (data : Data) : Node → Data → Prop where
  | top : Reached top data top data
  | key {n m : Node} {entries : List (String × Data)} {name : String} {p : Pair} {d : Data}
    (above : Reached top data n (.map entries)) (pair : v.find? n name = some p) (value : p.value = some m)
    (entry : Data.lookup? entries name = some d) : Reached top data m d
  | index {n m : Node} {ds : List Data} {i : Nat} {item : Item} {d : Data}
    (above : Reached top data n (.list ds)) (there : (v.items n)[i]? = some item) (value : item.value = some m)
    (entry : ds[i]? = some d) : Reached top data m d

variable {v isRead} {n m : Node} {d : Data}

/-- What decoding makes of a mapping. -/
theorem ComesFrom.mapping (h : ComesFrom v isRead (some n) d) (hm : v.mapping? n = some m) :
    ∃ entries merged data, (Value.map entries).Distinct ∧ Value.Named entries ∧
      Value.expandsPairs v isRead entries (v.directPairs m) = true ∧ Value.mergeEntries entries = .ok merged ∧
      d = .map data ∧ ∀ name, Option.Rel Value.Decodes (Value.ofName? name merged) (Data.lookup? data name) := by
  obtain ⟨value, hstands, hdistinct, hdecodes⟩ := h
  obtain ⟨entries, rfl, hpairs⟩ := Value.exists_of_expands_mapping hstands hm
  have hnamed := Value.named_of_expandsPairs hpairs hdistinct
  have hsources : ∀ more ∈ Value.broughtIn entries, ∀ e ∈ more, ∃ cs, e.1 = .text cs := by
    intro more hmore
    obtain ⟨source, hbrings⟩ := Value.exists_of_mem_left (Value.forall₂_merged hpairs hnamed) hmore
    exact Value.texts_of_expandsPairs hbrings
  obtain ⟨merged, data, hmerged, rfl, hrel⟩ := hdecodes.rel_lookup? hnamed hsources
  exact ⟨entries, merged, data, hdistinct, hnamed, hpairs, hmerged, rfl, hrel⟩

/-- At a mapping the data is right just if merges are plain there. -/
theorem agrees_iff_mergesPlain (h : ComesFrom v isRead (some n) d)
    (hid : ∀ a b, v.Reaches n a → v.Reaches n b → a.id = b.id → a = b) :
    Agrees v isRead n d ↔ v.MergesPlain n := by
  constructor
  · intro hagrees m hm
    obtain ⟨entries, merged, data, -, hnamed, hpairs, hmerged, rfl, hrel⟩ := h.mapping hm
    obtain ⟨entries', hdata, hkeys, -⟩ := hagrees m hm
    obtain rfl := Data.map.inj hdata
    have hnone : Data.lookup? data Value.mergeName = none := by
      rw [← Option.not_isSome_iff_eq_none, Data.isSome_lookup?_iff, hkeys]
      exact View.mergeKey_notMem_pairs v n
    have htaken : v.taken? n Yaml.mergeKey = none := by
      rw [← Option.not_isSome_iff_eq_none, ← isSome_eq_of_rel (Value.rel_ofName?_taken? hpairs hnamed hmerged hm _),
        isSome_eq_of_rel (hrel _)]
      exact Option.not_isSome_iff_eq_none.mpr hnone
    exact View.taken?_mergeKey_eq_none_iff.mp htaken m hm
  · intro hplain m hm
    obtain ⟨entries, merged, data, hdistinct, hnamed, hpairs, hmerged, rfl, hrel⟩ := h.mapping hm
    have hfind (name : String) : Option.Rel (fun value p => Value.StandsFor v isRead value p.value)
        (Value.ofName? name merged) (v.find? n name) := by
      rw [← View.taken?_of_mergesPlain hplain hid]
      exact Value.rel_ofName?_taken? hpairs hnamed hmerged hm name
    refine ⟨data, rfl, fun name => ?_, fun name p hp => ?_⟩
    · rw [← Data.isSome_lookup?_iff, ← isSome_eq_of_rel (hrel name), isSome_eq_of_rel (hfind name),
        View.isSome_find?_iff]
    · have hfound := hfind name
      rw [hp] at hfound
      obtain ⟨value, hvalue, hstands⟩ := exists_of_rel_some_right hfound
      have hdata := hrel name
      rw [hvalue] at hdata
      obtain ⟨below, hbelow, hdecodes⟩ := exists_of_rel_some_left hdata
      exact ⟨below, hbelow, value, hstands, Value.distinct_of_mergeEntries hdistinct hmerged hvalue, hdecodes⟩

/-- The data of a list comes from a sequence. -/
theorem ComesFrom.exists_items {n? : Option Node} {ds : List Data} (h : ComesFrom v isRead n? (.list ds)) :
    ∃ n, n? = some n ∧ v.mapping? n = none ∧
      ∀ i : Nat, Option.Rel (fun item below => ComesFrom v isRead (Item.value item) below) (v.items n)[i]? ds[i]? := by
  obtain ⟨value, hstands, hdistinct, hdecodes⟩ := h
  obtain ⟨items, rfl⟩ := hdecodes.exists_list
  cases n? with
  | none => cases hstands
  | some n =>
    simp only [Value.StandsFor, Value.expands, Bool.and_eq_true, Option.isNone_iff_eq_none] at hstands
    obtain ⟨⟨hmapping, -⟩, hitems⟩ := hstands
    obtain ⟨_, hlist, hbelow⟩ := hdecodes.list_inv
    obtain rfl := Data.list.inj hlist
    refine ⟨n, rfl, hmapping, fun i => ?_⟩
    have hwritten := rel_getElem? (Value.expandsItems_iff.mp hitems) i
    have hdecoded := rel_getElem? hbelow i
    obtain ⟨hvalue, hitem⟩ | ⟨value, item, hvalue, hitem, hstands⟩ := rel_cases hwritten
    · obtain ⟨-, hdata⟩ | ⟨_, _, hsome, -⟩ := rel_cases hdecoded
      · rw [hitem, hdata]
        exact .none
      · cases hvalue.symm.trans hsome
    · rw [hvalue] at hdecoded
      obtain ⟨below, hdata, hbelow⟩ := exists_of_rel_some_left hdecoded
      rw [hitem, hdata]
      exact .some ⟨value, hstands, Value.distinctItems_iff.mp hdistinct value (List.mem_of_getElem? hvalue), hbelow⟩

/-- The data of a sequence is the data of its items. -/
theorem ComesFrom.item {ds : List Data} (h : ComesFrom v isRead (some n) (.list ds)) {i : Nat} {item : Item}
    (hitem : (v.items n)[i]? = some item) {below : Data} (hbelow : ds[i]? = some below) :
    ComesFrom v isRead item.value below := by
  obtain ⟨_, hsame, -, hitems⟩ := h.exists_items
  obtain rfl := Option.some.inj hsame
  have hrel := hitems i
  rw [hitem, hbelow] at hrel
  cases hrel with
  | some hcomes => exact hcomes

/-- As long as merges are plain, keys and indices lead to the data of the node that they lead to. -/
theorem Reached.comesFrom {top : Node} {data : Data} (htop : ComesFrom v isRead (some top) data)
    (hid : ∀ a b, v.Reaches top a → v.Reaches top b → a.id = b.id → a = b)
    (hplain : ∀ n d, Reached v top data n d → v.Reaches top n → ComesFrom v isRead (some n) d → v.MergesPlain n)
    (h : Reached v top data n d) : v.Reaches top n ∧ ComesFrom v isRead (some n) d := by
  induction h with
  | top => exact ⟨.refl, htop⟩
  | @key n m entries name p d above pair value entry ih =>
    obtain ⟨hreach, hcomes⟩ := ih
    have hagrees := (agrees_iff_mergesPlain hcomes fun a b ha hb =>
      hid a b (hreach.trans ha) (hreach.trans hb)).mpr (hplain n _ above hreach hcomes)
    obtain ⟨mapping, hmapping⟩ := View.exists_mapping?_of_find? pair
    obtain ⟨entries', hdata, -, hvalues⟩ := hagrees mapping hmapping
    obtain rfl := Data.map.inj hdata
    obtain ⟨below, hbelow, hvalue⟩ := hvalues name p pair
    obtain rfl := Option.some.inj (hbelow.symm.trans entry)
    refine ⟨hreach.trans ?_, value ▸ hvalue⟩
    exact ((View.below_of_mem_pairs (List.mem_of_find?_eq_some pair)).value value).to_reflTransGen
  | @index n m ds i item d above there value entry ih =>
    obtain ⟨hreach, hcomes⟩ := ih
    refine ⟨hreach.trans ?_, value ▸ hcomes.item there entry⟩
    exact ((View.below_of_mem_items (List.mem_of_getElem? there)).value value).to_reflTransGen

/-- Keys and indices lead only to right data just if they lead only to plain merges. -/
theorem agrees_everywhere_iff {top : Node} {data : Data} (htop : ComesFrom v isRead (some top) data)
    (hid : ∀ a b, v.Reaches top a → v.Reaches top b → a.id = b.id → a = b) :
    (∀ n d, Reached v top data n d → Agrees v isRead n d) ↔ ∀ n d, Reached v top data n d → v.MergesPlain n := by
  have hiff : ∀ n d, v.Reaches top n → ComesFrom v isRead (some n) d →
      (Agrees v isRead n d ↔ v.MergesPlain n) := by
    intro n d hreach hcomes
    exact agrees_iff_mergesPlain hcomes fun a b ha hb => hid a b (hreach.trans ha) (hreach.trans hb)
  constructor
  · intro hagrees n d h
    obtain ⟨hreach, hcomes⟩ := h.comesFrom htop hid fun n d h hreach hcomes =>
      (hiff n d hreach hcomes).mp (hagrees n d h)
    exact (hiff n d hreach hcomes).mp (hagrees n d h)
  · intro hplain n d h
    obtain ⟨hreach, hcomes⟩ := h.comesFrom htop hid fun n d h _ _ => hplain n d h
    exact (hiff n d hreach hcomes).mpr (hplain n d h)

end

/-- Merge keys are applied, and keys become texts, as they are in the library that reads YAML. -/
structure Loader.IsStandard (l : Loader) : Prop where
  merge : ∀ value merged, l.applyMerge value = .ok merged → value.merge = .ok merged
  data : ∀ value data, l.toData value = .ok data → value.toData = .ok data

/-- The value that is loaded from the text of a tree is what the tree stands for, with aliases followed and merge keys
as they are written. Each of its mappings has each key once. -/
structure Loader.LoadsFrom (l : Loader) (t : Yaml.Tree) (isRead : Node → Value → Bool) (value : Value) : Prop where
  loaded : l.load t.source = .ok value
  distinct : value.Distinct
  expands : value.expands (.ofTree t) isRead t.top

theorem Loader.exists_of_decode {l : Loader} (hl : l.IsStandard) {text : List Char} {data : Data}
    (h : l.decode text = .ok data) : ∃ value, l.load text = .ok value ∧ value.Decodes data := by
  obtain ⟨value, hvalue, h⟩ := exists_of_bind_eq_ok h
  obtain ⟨merged, hmerged, h⟩ := exists_of_bind_eq_ok h
  exact ⟨value, exists_of_mapError_eq_ok hvalue, merged, hl.merge _ _ (exists_of_mapError_eq_ok hmerged),
    hl.data _ _ (exists_of_mapError_eq_ok h)⟩

theorem Loader.LoadsFrom.comesFrom {l : Loader} {t : Yaml.Tree} {isRead : Node → Value → Bool} {value : Value}
    {data : Data} (h : l.LoadsFrom t isRead value) (hl : l.IsStandard) (hdecode : l.decode t.source = .ok data) :
    ComesFrom (.ofTree t) isRead (some t.top) data := by
  obtain ⟨loaded, hloaded, hdecodes⟩ := l.exists_of_decode hl hdecode
  obtain rfl := Except.ok.inj (h.loaded.symm.trans hloaded)
  exact ⟨value, h.expands, h.distinct, hdecodes⟩

/-- Suppose that the text of a tree is decoded, and that the value that is loaded from it is what the tree stands for.
Then at every mapping that keys and indices lead to, the decoded data has the keys that the view has, each with the data
of the pair that counts, just if every such mapping merges only mappings without merges of their own. -/
theorem decode_agrees_iff_mergesPlain {l : Loader} {t : Yaml.Tree} {isRead : Node → Value → Bool} {value : Value}
    {data : Data} (hl : l.IsStandard) (ht : t.IsNumbered) (hload : l.LoadsFrom t isRead value)
    (hdecode : l.decode t.source = .ok data) :
    (∀ n d, Reached (.ofTree t) t.top data n d → Agrees (.ofTree t) isRead n d) ↔
      ∀ n d, Reached (.ofTree t) t.top data n d → (View.ofTree t).MergesPlain n :=
  agrees_everywhere_iff (hload.comesFrom hl hdecode) fun _ _ ha hb => View.eq_of_id_eq ht t.top_mem_preorder ha hb

theorem Loader.isStandard_standard : Loader.standard.IsStandard where
  merge _ _ h := exists_of_mapError_eq_ok h
  data _ _ h := exists_of_mapError_eq_ok h

/-- A mapping that merges the mappings of a list, and has a key of one of them. -/
def listMerge : Yaml.Tree :=
  Grammar.strict.tree "a: &a\n  x: one\n  y: two\nb:\n  <<: [*a]\n  y: three\n".toList

def isText (v : View) (n : Node) (value : Value) : Bool := value.isName (v.text n)

theorem exists_loadsFrom_listMerge : ∃ value data,
    Loader.standard.LoadsFrom listMerge (isText (.ofTree listMerge)) value ∧
      Loader.standard.decode listMerge.source = .ok data := by
  obtain ⟨hvalue, hdata⟩ : ((Loader.standard.load listMerge.source).toOption.filter fun value =>
      value.Distinct ∧ value.expands (.ofTree listMerge) (isText (.ofTree listMerge)) listMerge.top).isSome = true ∧
      (Loader.standard.decode listMerge.source).toOption.isSome = true := by
    decide +kernel
  obtain ⟨value, hvalue⟩ := Option.isSome_iff_exists.mp hvalue
  obtain ⟨data, hdata⟩ := Option.isSome_iff_exists.mp hdata
  obtain ⟨hload, hfacts⟩ := Option.filter_eq_some_iff.mp hvalue
  obtain ⟨hdistinct, hexpands⟩ := of_decide_eq_true hfacts
  exact ⟨value, data, ⟨eq_ok_of_toOption hload, hdistinct, hexpands⟩, eq_ok_of_toOption hdata⟩

theorem decode_agrees_iff_mergesPlain_of_list :
    Loader.standard.IsStandard ∧ listMerge.IsNumbered ∧ ∃ value data,
      Loader.standard.LoadsFrom listMerge (isText (.ofTree listMerge)) value ∧
      Loader.standard.decode listMerge.source = .ok data ∧
      ((∀ n d, Reached (.ofTree listMerge) listMerge.top data n d →
          Agrees (.ofTree listMerge) (isText (.ofTree listMerge)) n d) ↔
        ∀ n d, Reached (.ofTree listMerge) listMerge.top data n d → (View.ofTree listMerge).MergesPlain n) := by
  obtain ⟨value, data, hload, hdata⟩ := exists_loadsFrom_listMerge
  have hnumbered : listMerge.IsNumbered := Grammar.isNumbered_tree _ _
  exact ⟨Loader.isStandard_standard, hnumbered, value, data, hload, hdata,
    decode_agrees_iff_mergesPlain Loader.isStandard_standard hnumbered hload hdata⟩

def nestedMerge : Yaml.Tree := Grammar.strict.tree "a: &a\n  x: 1\nb: &b\n  <<: *a\n  y: 2\nc:\n  <<: *b\n".toList

def keysAt (name : String) : Data → List String
  | .map entries => match Data.lookup? entries name with
    | some (.map below) => below.map Prod.fst
    | _ => []
  | _ => []

/-- Where a merged mapping has a merge of its own, decoding leaves that merge key as a name. -/
theorem decode_keeps_nested_merge :
    (Loader.standard.decode nestedMerge.source).toOption.map (keysAt "c") = some ["<<", "y"] ∧
      (((View.ofTree nestedMerge).field? nestedMerge.top "c").map fun n =>
        ((View.ofTree nestedMerge).pairs n).map (View.ofTree nestedMerge).keyText) = some ["y", "x"] := by
  decide +kernel

end PipelineLint.Load
