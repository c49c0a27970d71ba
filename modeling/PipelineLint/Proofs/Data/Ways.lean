import PipelineLint.Proofs.Load.Expansion
import PipelineLint.Proofs.Text.Integer
import Mathlib.Data.String.Basic

/-! # Ways into data

Names and numbers of items lead into data. In data that was read from a text they lead to one part (`Leads.unique`),
since its mappings have each name once (`hasDistinctNames_of_decode`).
-/

namespace PipelineLint

namespace Data

/-- Names and numbers of items lead from data to a part of it. -/
inductive Leads : Data → List String → Data → Prop where
  | here (d : Data) : Leads d [] d
  | entry {entries : List (String × Data)} {name : String} {part target : Data} {way : List String}
      (hmem : (name, part) ∈ entries) (hrest : Leads part way target) : Leads (.map entries) (name :: way) target
  | item {parts : List Data} {index : Nat} {part target : Data} {way : List String}
      (hget : parts[index]? = some part) (hrest : Leads part way target) :
      Leads (.list parts) (toString index :: way) target

/-- Every mapping in the data has each of its names once. -/
def HasDistinctNames (d : Data) : Prop :=
  ∀ way entries, Leads d way (.map entries) → (entries.map Prod.fst).Nodup

variable {d part other : Data} {way : List String} {entries : List (String × Data)} {name : String}

theorem toString_injective {m n : Nat} (h : toString m = toString n) : m = n := by
  have hdigits : Nat.toDigits 10 m = Nat.toDigits 10 n := by
    simpa [Nat.repr, String.ofList_inj] using h
  rw [← Text.ofDigits_toDigits m, hdigits, Text.ofDigits_toDigits]

def numbered? {α : Type} (items : List α) (part : String) : Option α :=
  (items.zipIdx.find? fun e => toString e.2 == part).map Prod.fst

theorem numbered?_eq_some_iff {α : Type} {items : List α} {part : String} {i : α} :
    numbered? items part = some i ↔ ∃ index : Nat, part = toString index ∧ items[index]? = some i := by
  rw [numbered?, Option.map_eq_some_iff]
  constructor
  · rintro ⟨⟨j, index⟩, hfind, rfl⟩
    have hpart : toString index = part := by simpa using List.find?_some hfind
    exact ⟨index, hpart.symm, List.mem_zipIdx_iff_getElem?.mp (List.mem_of_find?_eq_some hfind)⟩
  · rintro ⟨index, rfl, hget⟩
    cases hfind : items.zipIdx.find? fun e => toString e.2 == toString index with
    | none =>
      have hnot := List.find?_eq_none.mp hfind (i, index) (List.mem_zipIdx_iff_getElem?.mpr hget)
      exact absurd (beq_self_eq_true (toString index)) hnot
    | some e =>
      have hindex : e.2 = index := toString_injective (by simpa using List.find?_some hfind)
      have hthere := List.mem_zipIdx_iff_getElem?.mp (List.mem_of_find?_eq_some hfind)
      rw [hindex] at hthere
      exact ⟨e, rfl, Option.some.inj (hthere.symm.trans hget)⟩

theorem HasDistinctNames.entry (h : HasDistinctNames (.map entries)) (hmem : (name, part) ∈ entries) :
    HasDistinctNames part :=
  fun way more hleads => h (name :: way) more (.entry hmem hleads)

theorem HasDistinctNames.item {parts : List Data} {index : Nat} (h : HasDistinctNames (.list parts))
    (hget : parts[index]? = some part) : HasDistinctNames part :=
  fun way more hleads => h (toString index :: way) more (.item hget hleads)

/-- A way leads to one part. -/
theorem Leads.unique (hd : HasDistinctNames d) (h : Leads d way part) (h' : Leads d way other) : part = other := by
  induction h with
  | here d =>
    cases h' with
    | here => rfl
  | entry hmem _ ih =>
    cases h' with
    | entry hmem' hrest' =>
      have hsame := List.inj_on_of_nodup_map (hd [] _ (.here _)) hmem hmem' rfl
      obtain rfl := (Prod.mk.inj hsame).2
      exact ih (hd.entry hmem) hrest'
  | @item parts index part target way hget _ ih =>
    generalize hway : toString index :: way = steps at h'
    cases h' with
    | here => cases hway
    | item hget' hrest' =>
      obtain ⟨hindex, rfl⟩ := List.cons.inj hway
      obtain rfl := toString_injective hindex
      obtain rfl := Option.some.inj (hget.symm.trans hget')
      exact ih (hd.item hget) hrest'

variable {target : Data} {before after : List String}

theorem Leads.append (h : Leads d before part) (hrest : Leads part after target) :
    Leads d (before ++ after) target := by
  induction h with
  | here => exact hrest
  | entry hmem _ ih => exact .entry hmem (ih hrest)
  | item hget _ ih => exact .item hget (ih hrest)

theorem Leads.exists_of_append (h : Leads d (before ++ after) target) : ∃ part, Leads d before part := by
  induction before generalizing d with
  | nil => exact ⟨d, .here d⟩
  | cons step before ih =>
    cases h with
    | entry hmem hrest =>
      obtain ⟨part, hpart⟩ := ih hrest
      exact ⟨part, .entry hmem hpart⟩
    | item hget hrest =>
      obtain ⟨part, hpart⟩ := ih hrest
      exact ⟨part, .item hget hpart⟩

/-- The entries stand in the order of their names, each of which is there once. -/
def InOrder (entries : List (String × Data)) : Prop := entries.Pairwise fun e f => e.1 < f.1

private theorem InOrder.nodup (h : InOrder entries) : (entries.map Prod.fst).Nodup :=
  List.pairwise_map.mpr (h.imp fun hless => hless.ne)

theorem mem_insertEntry {e : String × Data} (h : e ∈ insertEntry name d entries) : e = (name, d) ∨ e ∈ entries := by
  induction entries with
  | nil => exact .inl (List.mem_singleton.mp h)
  | cons first entries ih =>
    rw [insertEntry] at h
    split at h
    · exact (List.mem_cons.mp h).imp_right (List.mem_cons_of_mem _)
    split at h
    · exact List.mem_cons.mp h
    · rcases List.mem_cons.mp h with rfl | h
      · exact .inr List.mem_cons_self
      · exact (ih h).imp_right (List.mem_cons_of_mem _)

private theorem InOrder.insertEntry (h : InOrder entries) (name : String) (d : Data) :
    InOrder (insertEntry name d entries) := by
  induction entries with
  | nil => exact List.pairwise_singleton _ _
  | cons first entries ih =>
    obtain ⟨other, held⟩ := first
    obtain ⟨hfirst, hrest⟩ := List.pairwise_cons.mp h
    rw [Data.insertEntry]
    split
    · next hsame => exact List.pairwise_cons.mpr ⟨eq_of_beq hsame ▸ hfirst, hrest⟩
    next hne =>
    split
    · next hless =>
      refine List.pairwise_cons.mpr ⟨fun e he => ?_, h⟩
      rcases List.mem_cons.mp he with rfl | he
      · exact hless
      · exact hless.trans (hfirst e he)
    · next hnot =>
      refine List.pairwise_cons.mpr ⟨fun e he => ?_, ih hrest⟩
      rcases mem_insertEntry he with rfl | he
      · exact lt_of_le_of_ne (not_lt.mp hnot) fun hsame => hne (beq_iff_eq.mpr hsame.symm)
      · exact hfirst e he

private theorem inOrder_orderEntries (entries : List (String × Data)) : InOrder (orderEntries entries) :=
  List.foldlRecOn (motive := InOrder) _ _ List.Pairwise.nil fun _ h e _ => h.insertEntry e.1 e.2

private theorem mem_of_mem_orderEntries {e : String × Data} (h : e ∈ orderEntries entries) : e ∈ entries := by
  refine List.foldlRecOn (motive := fun ordered => ∀ f ∈ ordered, f ∈ entries) _ _ ?_ ?_ e h
  · exact fun _ hf => absurd hf List.not_mem_nil
  · intro ordered hordered added hadded f hf
    rcases mem_insertEntry hf with rfl | hf
    · exact hadded
    · exact hordered f hf

open Load.Value

/-- Each part of the data of a value is the data of a value. -/
theorem exists_toData_of_leads {v : Load.Value} (hv : v.toData = .ok d) (h : Leads d way part) :
    ∃ w : Load.Value, w.toData = .ok part := by
  induction h generalizing v with
  | here => exact ⟨v, hv⟩
  | entry hmem _ ih =>
    rcases toData_eq_map hv with ⟨es, named, rfl, hnamed, rfl⟩ | ⟨tag, value, data, rfl, hdata, rfl⟩
    · obtain ⟨e, -, he⟩ := Load.Value.exists_of_mem_left (forall₂_of_dataOfEntries_eq_ok hnamed).flip
        (mem_of_mem_orderEntries hmem)
      exact ih he
    · obtain rfl := (Prod.mk.inj (List.mem_singleton.mp hmem)).2
      exact ih hdata
  | item hget _ ih =>
    obtain ⟨items, rfl, hitems⟩ := toData_eq_list hv
    obtain ⟨w, hw⟩ := Load.Value.exists_of_mem_left (forall₂_of_dataOfItems_eq_ok hitems).flip (List.mem_of_getElem? hget)
    exact ih hw

private theorem nodup_of_toData {v : Load.Value} (hv : v.toData = .ok (.map entries)) :
    (entries.map Prod.fst).Nodup := by
  rcases toData_eq_map hv with ⟨_, named, -, -, rfl⟩ | ⟨_, _, _, -, -, rfl⟩
  · exact (inOrder_orderEntries named).nodup
  · exact List.nodup_singleton _

theorem hasDistinctNames_of_decode {l : Load.Loader} (hl : l.IsStandard) {text : List Char}
    (h : l.decode text = .ok d) : HasDistinctNames d := by
  intro way entries hleads
  obtain ⟨value, -, merged, -, hdata⟩ := l.exists_of_decode hl h
  obtain ⟨w, hw⟩ := exists_toData_of_leads hdata hleads
  exact nodup_of_toData hw

theorem mem_of_lookup? (h : lookup? entries name = some part) : (name, part) ∈ entries := by
  obtain ⟨⟨other, held⟩, hfind, rfl⟩ := Option.map_eq_some_iff.mp h
  obtain rfl : other = name := by simpa using List.find?_some hfind
  exact List.mem_of_find?_eq_some hfind

theorem lookup?_of_mem (hnodup : (entries.map Prod.fst).Nodup)
    (hmem : (name, part) ∈ entries) : lookup? entries name = some part := by
  have hsome : (lookup? entries name).isSome := isSome_lookup?_iff.mpr (List.mem_map_of_mem hmem)
  obtain ⟨other, hother⟩ := Option.isSome_iff_exists.mp hsome
  have hsame := List.inj_on_of_nodup_map hnodup (mem_of_lookup? hother) hmem rfl
  rw [hother, (Prod.mk.inj hsame).2]

def at? (d : Data) : List String → Option Data
  | [] => some d
  | step :: way => match d with
    | .map entries => (lookup? entries step).bind (at? · way)
    | .list parts => (numbered? parts step).bind (at? · way)
    | _ => none

theorem leads_of_at? (h : d.at? way = some part) : Leads d way part := by
  induction way generalizing d with
  | nil =>
    obtain rfl := Option.some.inj h
    exact .here d
  | cons step way ih =>
    cases d with
    | map entries =>
      obtain ⟨held, hlookup, hrest⟩ := Option.bind_eq_some_iff.mp h
      exact .entry (mem_of_lookup? hlookup) (ih hrest)
    | list parts =>
      obtain ⟨item, hitem, hrest⟩ := Option.bind_eq_some_iff.mp h
      obtain ⟨index, rfl, hget⟩ := numbered?_eq_some_iff.mp hitem
      exact .item hget (ih hrest)
    | _ => cases h

end Data

end PipelineLint
