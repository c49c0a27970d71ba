import PipelineLint.Load.Merge
import PipelineLint.Proofs.Related
import Mathlib.Data.List.Perm.Basic
import Mathlib.Data.List.Nodup

/-! # The entries of a merged mapping

A name means in a merged mapping what it means in the mapping itself, or else in the first mapping with the name
among those that its merge key brings in. Their own merge keys are names like all others.
-/

namespace PipelineLint.Load.Value

def ofName? (name : String) (entries : List (Value × Value)) : Option Value :=
  lookup? (.text name.toList) entries

def mergeName : String := "<<"

/-- The keys are names, each of which is there once. -/
structure Named (entries : List (Value × Value)) : Prop where
  texts : ∀ e ∈ entries, ∃ cs, e.1 = .text cs
  nodup : (entries.map Prod.fst).Nodup

def entries? : Value → Option (List (Value × Value))
  | .map entries => some entries
  | _ => none

/-- The mappings that a value brings in where it is merged. -/
def broughtBy : Value → List (List (Value × Value))
  | .map more => [more]
  | .list items => items.filterMap entries?
  | _ => []

/-- The mappings that the merge key of a mapping brings in. -/
def broughtIn (entries : List (Value × Value)) : List (List (Value × Value)) :=
  ((ofName? mergeName entries).map broughtBy).getD []

theorem same_text {key : Value} {cs : List Char} : key.same (.text cs) = true ↔ key = .text cs := by
  cases key <;> simp [same]

theorem mergeKey_eq : mergeKey = .text mergeName.toList := rfl

theorem same_mergeKey {key : Value} : key.same mergeKey = true ↔ key = mergeKey := same_text

variable {entries more merged : List (Value × Value)} {name : String}

theorem lookup?_eq (key : Value) (entries : List (Value × Value)) :
    lookup? key entries = (entries.find? fun e => e.1.same key).map Prod.snd := rfl

theorem isSome_lookup?_text_iff {cs : List Char} :
    (lookup? (.text cs) entries).isSome ↔ .text cs ∈ entries.map Prod.fst := by
  rw [lookup?_eq, Option.isSome_map, List.find?_isSome, List.mem_map]
  exact exists_congr fun e => and_congr_right fun _ => same_text

theorem ofName?_append :
    ofName? name (entries ++ more) = (ofName? name entries).or (ofName? name more) := by
  simp only [ofName?, lookup?_eq, List.find?_append, Option.map_or]

private theorem ofName?_singleton_of_ne {e : Value × Value} (h : e.1 ≠ .text name.toList) :
    ofName? name [e] = none := by
  simp [ofName?, lookup?_eq, same_text, h]

theorem mem_of_ofName?_eq_some {v : Value} (h : ofName? name entries = some v) :
    (.text name.toList, v) ∈ entries := by
  rw [ofName?, lookup?_eq] at h
  obtain ⟨e, he, rfl⟩ := Option.map_eq_some_iff.mp h
  have hkey : e.1 = .text name.toList := by simpa [same_text] using List.find?_some he
  exact hkey ▸ List.mem_of_find?_eq_some he

theorem Named.ofName?_eq_some_iff (h : Named entries) {v : Value} :
    ofName? name entries = some v ↔ (.text name.toList, v) ∈ entries := by
  refine ⟨mem_of_ofName?_eq_some, fun hv => ?_⟩
  cases hget : ofName? name entries with
  | none =>
    have hnone := List.find?_eq_none.mp (Option.map_eq_none_iff.mp hget) _ hv
    exact absurd (same_text.mpr rfl) hnone
  | some w =>
    have hw := mem_of_ofName?_eq_some hget
    exact congrArg (some ·.2) (List.inj_on_of_nodup_map h.nodup hw hv rfl)

section

variable {α : Type} {xs : List α} {nameOf : α → String}

/-- A name means in entries what the first thing of that name corresponds to. -/
theorem rel_ofName?_find? {r : Value → α → Prop}
    (h : List.Forall₂ (fun e x => e.1 = .text (nameOf x).toList ∧ r e.2 x) entries xs) (name : String) :
    Option.Rel r (ofName? name entries) (xs.find? fun x => nameOf x == name) := by
  have hfind : Option.Rel (fun e x => e.1 = .text (nameOf x).toList ∧ r e.2 x)
      (entries.find? fun e => e.1.same (.text name.toList)) (xs.find? fun x => nameOf x == name) := by
    refine rel_find? h fun e x hex => ?_
    rw [Bool.eq_iff_iff, same_text, hex.1, beq_iff_eq, Value.text.injEq, String.toList_inj]
  rw [ofName?, lookup?_eq]
  obtain ⟨he, hx⟩ | ⟨e, x, he, hx, -, hvalue⟩ := rel_cases hfind
  · rw [he, hx]
    exact .none
  · rw [he, hx]
    exact .some hvalue

theorem Named.nodup_of_forall₂ (h : Named entries)
    (hkeys : List.Forall₂ (fun e x => e.1 = .text (nameOf x).toList) entries xs) : (xs.map nameOf).Nodup := by
  have hnames : entries.map Prod.fst = (xs.map nameOf).map fun name => .text name.toList := by
    rw [List.map_map]
    exact map_eq_of_forall₂ hkeys fun _ _ hkey => hkey
  have hnodup := h.nodup
  rw [hnames] at hnodup
  exact hnodup.of_map _

end

theorem addEntries_cons (e : Value × Value) (more : List (Value × Value)) :
    addEntries entries (e :: more) =
      addEntries (if (lookup? e.1 entries).isSome then entries else entries ++ [e]) more := rfl

/-- An added entry counts where the name is not there. -/
theorem ofName?_addEntries :
    ofName? name (addEntries entries more) = (ofName? name entries).or (ofName? name more) := by
  induction more generalizing entries with
  | nil => exact (Option.or_none).symm
  | cons e more ih =>
    have hsplit : ofName? name (e :: more) = (ofName? name [e]).or (ofName? name more) := by
      rw [← List.singleton_append, ofName?_append]
    rw [addEntries_cons, ih, hsplit, ← Option.or_assoc]
    congr 1
    split_ifs with hthere
    · by_cases hkey : e.1 = .text name.toList
      · rw [hkey] at hthere
        exact (Option.or_of_isSome hthere).symm
      · rw [ofName?_singleton_of_ne hkey, Option.or_none]
    · exact ofName?_append

private theorem mem_addEntries {e : Value × Value} (h : e ∈ addEntries entries more) : e ∈ entries ∨ e ∈ more := by
  induction more generalizing entries with
  | nil => exact .inl h
  | cons other more ih =>
    rw [addEntries_cons] at h
    rcases ih h with h | h
    · split_ifs at h
      · exact .inl h
      · rcases List.mem_append.mp h with h | h
        · exact .inl h
        · exact .inr (List.mem_singleton.mp h ▸ List.mem_cons_self)
    · exact .inr (List.mem_cons_of_mem _ h)

private theorem Named.addEntries (h : Named entries) (hmore : ∀ e ∈ more, ∃ cs, e.1 = .text cs) :
    Named (addEntries entries more) := by
  induction more generalizing entries with
  | nil => exact h
  | cons e more ih =>
    obtain ⟨⟨cs, hkey⟩, hrest⟩ := List.forall_mem_cons.mp hmore
    rw [addEntries_cons]
    refine ih ?_ hrest
    split_ifs with hthere
    · exact h
    · refine ⟨fun e' he' => ?_, ?_⟩
      · rcases List.mem_append.mp he' with he' | he'
        · exact h.texts e' he'
        · exact ⟨cs, List.mem_singleton.mp he' ▸ hkey⟩
      · have hnew : e.1 ∉ entries.map Prod.fst := by
          intro hmem
          rw [hkey] at hthere hmem
          exact hthere (isSome_lookup?_text_iff.mpr hmem)
        rw [List.map_append]
        exact h.nodup.append (List.nodup_singleton _) (by simpa using hnew)

theorem removeEntry_eq (key : Value) (entries : List (Value × Value)) :
    removeEntry key entries = match entries.findIdx? fun e => e.1.same key with
      | none => entries
      | some i =>
        if i + 1 = entries.length then entries.dropLast
        else match entries.getLast? with
          | some last => entries.dropLast.set i last
          | none => entries := rfl

private theorem mem_of_mem_removeEntry {key : Value} {e : Value × Value} (h : e ∈ removeEntry key entries) :
    e ∈ entries := by
  rw [removeEntry_eq] at h
  split at h
  · exact h
  · split_ifs at h
    · exact List.dropLast_subset _ h
    · split at h
      · rename_i last hlast
        rcases List.mem_or_eq_of_mem_set h with h | rfl
        · exact List.dropLast_subset _ h
        · exact List.mem_of_getLast? hlast
      · exact h

/-- Where an entry is taken away, the last one takes its place. -/
theorem removeEntry_perm_of_split {key : Value} {before after : List (Value × Value)} {e : Value × Value}
    (h : (before ++ e :: after).findIdx? (fun e => e.1.same key) = some before.length) :
    (removeEntry key (before ++ e :: after)).Perm (before ++ after) := by
  rw [removeEntry_eq, h]
  rcases List.eq_nil_or_concat after with rfl | ⟨after, last, rfl⟩
  · simp
  · have hlength : before.length + 1 ≠ (before ++ e :: (after ++ [last])).length := by
      simp
    have hlast : (before ++ e :: (after ++ [last])).getLast? = some last := by
      rw [← List.cons_append, ← List.append_assoc, List.getLast?_concat]
    have hdrop : (before ++ e :: (after ++ [last])).dropLast = before ++ e :: after := by
      rw [List.dropLast_append_of_ne_nil (by simp), ← List.cons_append, List.dropLast_concat]
    simp only [List.concat_eq_append, hlength, if_false, hlast, hdrop]
    rw [List.set_append_right _ _ (Nat.le_refl _), Nat.sub_self, List.set_cons_zero]
    exact (List.perm_append_left_iff before).mpr (List.perm_append_singleton last after).symm

/-- Taking the merge key away leaves the other entries, in some order. -/
theorem Named.removeEntry_perm (h : Named entries) :
    (removeEntry mergeKey entries).Perm (entries.filter fun e => !e.1.same mergeKey) := by
  cases hfind : entries.findIdx? fun e => e.1.same mergeKey with
  | none =>
    have hall := List.findIdx?_eq_none_iff.mp hfind
    rw [removeEntry_eq, hfind, List.filter_eq_self.mpr fun e he => by simpa using hall e he]
  | some i =>
    obtain ⟨hi, hsame, -⟩ := List.findIdx?_eq_some_iff_getElem.mp hfind
    have hkey : entries[i].1 = mergeKey := same_mergeKey.mp hsame
    have hsplit : entries = entries.take i ++ entries[i] :: entries.drop (i + 1) := by simp
    have hlength : i = (entries.take i).length := by
      rw [List.length_take]
      omega
    clear hsame
    generalize entries[i] = e at hkey hsplit
    generalize entries.take i = before at hsplit hlength
    generalize entries.drop (i + 1) = after at hsplit
    subst hsplit hlength
    have hothers : ∀ other ∈ before ++ after, !other.1.same mergeKey := by
      intro other hother
      have hnodup := h.nodup
      rw [List.map_append, List.map_cons, List.nodup_middle] at hnodup
      have hnotMem := (List.nodup_cons.mp hnodup).1
      rw [← List.map_append, hkey] at hnotMem
      have hne : other.1 ≠ mergeKey := fun hsame => hnotMem (hsame ▸ List.mem_map_of_mem hother)
      simpa using mt same_mergeKey.mp hne
    have hfilter : (before ++ e :: after).filter (fun e => !e.1.same mergeKey) = before ++ after := by
      have hself := List.filter_eq_self.mpr hothers
      rw [List.filter_append] at hself ⊢
      rw [List.filter_cons_of_neg (by simp [same_mergeKey.mpr hkey]), hself]
    rw [hfilter]
    exact removeEntry_perm_of_split hfind

theorem Named.removeEntry (h : Named entries) : Named (removeEntry mergeKey entries) := by
  have hperm := h.removeEntry_perm
  have hsub : (entries.filter fun e => !e.1.same mergeKey).Sublist entries := List.filter_sublist
  refine ⟨fun e he => h.texts e (hsub.subset (hperm.mem_iff.mp he)), ?_⟩
  exact (hperm.map Prod.fst).nodup_iff.mpr (h.nodup.sublist (hsub.map Prod.fst))

theorem Named.mem_removeEntry_iff (h : Named entries) {e : Value × Value} :
    e ∈ Value.removeEntry mergeKey entries ↔ e ∈ entries ∧ e.1 ≠ mergeKey := by
  rw [h.removeEntry_perm.mem_iff, List.mem_filter]
  exact and_congr_right fun _ => by rw [ne_eq, ← same_mergeKey, Bool.not_eq_true', Bool.not_eq_true]

private theorem Named.ofName?_removeEntry (h : Named entries) :
    ofName? name (Value.removeEntry mergeKey entries) =
      if name = mergeName then none else ofName? name entries := by
  have hkey : (.text name.toList : Value) = mergeKey ↔ name = mergeName := by
    rw [mergeKey_eq, Value.text.injEq, String.toList_inj]
  ext v
  rw [h.removeEntry.ofName?_eq_some_iff, h.mem_removeEntry_iff, ne_eq, hkey]
  split_ifs with hname
  · simp [hname]
  · simp [hname, h.ofName?_eq_some_iff]

private theorem addItems_eq_ok {items : List Value} (h : addItems entries items = .ok merged) :
    merged = (items.filterMap entries?).foldl addEntries entries := by
  induction items generalizing entries with
  | nil => exact (Except.ok.inj h).symm
  | cons item items ih =>
    cases item with
    | map more => exact ih h
    | _ => cases h

/-- Merging adds the entries of the mappings that are brought in, one after the other. -/
theorem mergeEntries_eq_ok (h : mergeEntries entries = .ok merged) :
    merged = if (ofName? mergeName entries).isSome then
      (broughtIn entries).foldl addEntries (removeEntry mergeKey entries) else entries := by
  have hname : lookup? mergeKey entries = ofName? mergeName entries := rfl
  rw [mergeEntries, hname] at h
  rw [broughtIn]
  cases hvalue : ofName? mergeName entries with
  | none =>
    rw [hvalue] at h
    exact (Except.ok.inj h).symm
  | some value =>
    rw [hvalue] at h
    cases value with
    | map more => exact (Except.ok.inj h).symm
    | list items => exact addItems_eq_ok h
    | _ => cases h

private theorem ofName?_foldl_addEntries (sources : List (List (Value × Value))) :
    ofName? name (sources.foldl addEntries entries) =
      (ofName? name entries).or (sources.findSome? (ofName? name)) := by
  induction sources generalizing entries with
  | nil => exact Option.or_none.symm
  | cons more sources ih =>
    rw [List.foldl_cons, ih, ofName?_addEntries, Option.or_assoc]
    congr 1
    rw [List.findSome?_cons]
    cases ofName? name more <;> rfl

private theorem mem_foldl_addEntries {sources : List (List (Value × Value))} {e : Value × Value}
    (h : e ∈ sources.foldl addEntries entries) : e ∈ entries ∨ ∃ more ∈ sources, e ∈ more := by
  induction sources generalizing entries with
  | nil => exact .inl h
  | cons more sources ih =>
    rcases ih h with h | ⟨source, hsource, h⟩
    · rcases mem_addEntries h with h | h
      · exact .inl h
      · exact .inr ⟨more, List.mem_cons_self, h⟩
    · exact .inr ⟨source, List.mem_cons_of_mem _ hsource, h⟩

private theorem Named.foldl_addEntries {sources : List (List (Value × Value))} (h : Named entries)
    (hsources : ∀ more ∈ sources, ∀ e ∈ more, ∃ cs, e.1 = .text cs) :
    Named (sources.foldl Value.addEntries entries) := by
  induction sources generalizing entries with
  | nil => exact h
  | cons more sources ih =>
    obtain ⟨hmore, hrest⟩ := List.forall_mem_cons.mp hsources
    exact ih (h.addEntries hmore) hrest

/-- What a name means in a merged mapping. -/
theorem Named.ofName?_mergeEntries (h : Named entries) (hmerged : mergeEntries entries = .ok merged) :
    ofName? name merged = (if name = mergeName then none else ofName? name entries).or
      ((broughtIn entries).findSome? (ofName? name)) := by
  rw [mergeEntries_eq_ok hmerged]
  split_ifs with hthere hname hname
  · rw [ofName?_foldl_addEntries, h.ofName?_removeEntry, if_pos hname]
  · rw [ofName?_foldl_addEntries, h.ofName?_removeEntry, if_neg hname]
  · rw [Option.not_isSome_iff_eq_none] at hthere
    rw [hname, broughtIn, hthere]
    rfl
  · rw [Option.not_isSome_iff_eq_none] at hthere
    rw [broughtIn, hthere]
    exact Option.or_none.symm

theorem mem_of_mem_mergeEntries {e : Value × Value} (hmerged : mergeEntries entries = .ok merged)
    (he : e ∈ merged) : e ∈ entries ∨ ∃ more ∈ broughtIn entries, e ∈ more := by
  rw [mergeEntries_eq_ok hmerged] at he
  split_ifs at he
  · exact (mem_foldl_addEntries he).imp_left mem_of_mem_removeEntry
  · exact .inl he

theorem Named.mergeEntries (h : Named entries)
    (hsources : ∀ more ∈ broughtIn entries, ∀ e ∈ more, ∃ cs, e.1 = .text cs)
    (hmerged : Value.mergeEntries entries = .ok merged) : Named merged := by
  rw [mergeEntries_eq_ok hmerged]
  split_ifs
  · exact h.removeEntry.foldl_addEntries hsources
  · exact h

end PipelineLint.Load.Value
