import PipelineLint.Load.Decode
import PipelineLint.Proofs.Load.Entries
import PipelineLint.Proofs.Results
import Mathlib.Data.List.Forall2

/-! # Merged data

A value is merged from the outside in, and the depth of the value bounds the steps: a value below is merged as it is
on its own. So the data of a mapping is that of its merged entries, and the data of an entry is that of its value.
-/

namespace PipelineLint

namespace Data

theorem lookup?_cons (name : String) (d : Data) (entries : List (String × Data)) (key : String) :
    lookup? ((name, d) :: entries) key = if name = key then some d else lookup? entries key := by
  by_cases h : name = key <;> simp [lookup?, h]

private theorem lookup?_insertEntry (name : String) (d : Data) (entries : List (String × Data)) (key : String) :
    lookup? (insertEntry name d entries) key = if name = key then some d else lookup? entries key := by
  induction entries with
  | nil => rw [insertEntry, lookup?_cons]
  | cons entry entries ih =>
    obtain ⟨other, held⟩ := entry
    rw [insertEntry]
    by_cases hsame : name = other
    · subst hsame
      rw [if_pos (beq_self_eq_true name), lookup?_cons, lookup?_cons]
      split_ifs <;> rfl
    · rw [if_neg (mt beq_iff_eq.mp hsame)]
      by_cases hless : name < other
      · rw [if_pos hless, lookup?_cons]
      · rw [if_neg hless, lookup?_cons, lookup?_cons, ih]
        by_cases hkey : name = key
        · subst hkey
          rw [if_neg (Ne.symm hsame), if_pos rfl, if_pos rfl]
        · rw [if_neg hkey, if_neg hkey]

theorem isSome_lookup?_iff {entries : List (String × Data)} {key : String} :
    (lookup? entries key).isSome ↔ key ∈ entries.map Prod.fst := by
  rw [lookup?, Option.isSome_map, List.find?_isSome, List.mem_map]
  exact exists_congr fun e => and_congr_right fun _ => beq_iff_eq

/-- Ordering entries with distinct names does not change what a name means. -/
theorem lookup?_orderEntries {entries : List (String × Data)} (h : (entries.map Prod.fst).Nodup) (key : String) :
    lookup? (orderEntries entries) key = lookup? entries key := by
  have hfold : ∀ held : List (String × Data),
      lookup? (entries.foldl (fun ordered entry => insertEntry entry.1 entry.2 ordered) held) key =
        (lookup? entries key).or (lookup? held key) := by
    induction entries with
    | nil => exact fun held => rfl
    | cons entry entries ih =>
      intro held
      obtain ⟨hnew, hrest⟩ := List.nodup_cons.mp h
      rw [List.foldl_cons, ih hrest, lookup?_insertEntry, lookup?_cons]
      split_ifs with hkey
      · have hnone : lookup? entries key = none := by
          rw [← Option.not_isSome_iff_eq_none, isSome_lookup?_iff, ← hkey]
          exact hnew
        rw [hnone]
        rfl
      · rfl
  exact (hfold []).trans (Option.or_none)

end Data

namespace Load.Value

variable {entries merged : List (Value × Value)}

theorem depth_le_depthOfItems {v : Value} {items : List Value} (h : v ∈ items) : depth v ≤ depthOfItems items := by
  induction items with
  | nil => cases h
  | cons w items ih =>
    rw [depthOfItems]
    rcases List.mem_cons.mp h with rfl | h
    · exact Nat.le_max_left _ _
    · exact Nat.le_trans (ih h) (Nat.le_max_right _ _)

theorem depth_le_depthOfEntries {e : Value × Value} (h : e ∈ entries) : depth e.2 ≤ depthOfEntries entries := by
  induction entries with
  | nil => cases h
  | cons f entries ih =>
    rw [depthOfEntries]
    rcases List.mem_cons.mp h with rfl | h
    · exact Nat.le_max_left _ _
    · exact Nat.le_trans (ih h) (Nat.le_max_right _ _)

private theorem depthOfEntries_le_of_mem_broughtIn {more : List (Value × Value)} (h : more ∈ broughtIn entries) :
    depthOfEntries more ≤ depthOfEntries entries := by
  rw [broughtIn] at h
  cases hvalue : ofName? mergeName entries with
  | none => simp [hvalue] at h
  | some value =>
    have hdepth := depth_le_depthOfEntries (mem_of_ofName?_eq_some hvalue)
    replace h : more ∈ broughtBy value := by simpa [hvalue] using h
    cases value with
    | map other =>
      simp only [depth] at hdepth
      rw [List.mem_singleton.mp h]
      omega
    | list items =>
      obtain ⟨item, hitem, hmore⟩ := List.mem_filterMap.mp h
      have hbelow := depth_le_depthOfItems hitem
      cases item with
      | map inner =>
        obtain rfl := Option.some.inj hmore
        simp only [depth] at hdepth hbelow
        omega
      | _ => cases hmore
    | _ => cases h

/-- Merging brings in nothing that is deeper. -/
theorem depth_le_of_mem_mergeEntries {e : Value × Value} (h : mergeEntries entries = .ok merged) (he : e ∈ merged) :
    depth e.2 ≤ depthOfEntries entries := by
  rcases mem_of_mem_mergeEntries h he with he | ⟨more, hmore, he⟩
  · exact depth_le_depthOfEntries he
  · exact Nat.le_trans (depth_le_depthOfEntries he) (depthOfEntries_le_of_mem_broughtIn hmore)

theorem fromLast_congr {α : Type} {f g : α → Except MergeProblem α} {as : List α} (h : ∀ a ∈ as, f a = g a) :
    fromLast f as = fromLast g as := by
  induction as with
  | nil => rfl
  | cons a as ih =>
    obtain ⟨ha, has⟩ := List.forall_mem_cons.mp h
    rw [fromLast, fromLast, ih has, ha]

theorem forall₂_of_fromLast_eq_ok {α : Type} {f : α → Except MergeProblem α} {as bs : List α}
    (h : fromLast f as = .ok bs) : List.Forall₂ (fun a b => f a = .ok b) as bs := by
  induction as generalizing bs with
  | nil =>
    obtain rfl := Except.ok.inj h
    exact .nil
  | cons a as ih =>
    obtain ⟨rest, hrest, h⟩ := exists_of_bind_eq_ok h
    obtain ⟨b, hfirst, h⟩ := exists_of_bind_eq_ok h
    obtain rfl := Except.ok.inj h
    exact .cons hfirst (ih hrest)

theorem mergeTo_succ_map (n : Nat) (entries : List (Value × Value)) :
    mergeTo (n + 1) (.map entries) = (do
      let merged ← mergeEntries entries
      let done ← fromLast (fun e => (mergeTo n e.2).map (e.1, ·)) merged
      pure (.map done)) := rfl

theorem mergeTo_succ_list (n : Nat) (items : List Value) :
    mergeTo (n + 1) (.list items) = (fromLast (mergeTo n) items).map Value.list := rfl

/-- More steps than a value is deep change nothing. -/
theorem mergeTo_eq_of_depth_le {n m : Nat} {v : Value} (hn : depth v ≤ n) (hm : depth v ≤ m) :
    mergeTo n v = mergeTo m v := by
  induction n generalizing m v with
  | zero =>
    cases v with
    | list items => simp [depth] at hn
    | map entries => simp [depth] at hn
    | tagged tag inner => simp [depth] at hn
    | _ => cases m <;> rfl
  | succ n ih =>
    cases m with
    | zero =>
      cases v with
      | list items => simp [depth] at hm
      | map entries => simp [depth] at hm
      | tagged tag inner => simp [depth] at hm
      | _ => rfl
    | succ m =>
      cases v with
      | map entries =>
        rw [depth] at hn hm
        rw [mergeTo_succ_map, mergeTo_succ_map]
        cases hmerged : mergeEntries entries with
        | error e => rfl
        | ok merged =>
          have hbelow : ∀ e ∈ merged, ((mergeTo n e.2).map (e.1, ·)) = (mergeTo m e.2).map (e.1, ·) := by
            intro e he
            have hdepth := depth_le_of_mem_mergeEntries hmerged he
            rw [ih (m := m) (v := e.2) (by omega) (by omega)]
          exact congrArg (fun done => done >>= fun done => pure (Value.map done)) (fromLast_congr hbelow)
      | list items =>
        rw [depth] at hn hm
        rw [mergeTo_succ_list, mergeTo_succ_list]
        refine congrArg (Except.map Value.list) (fromLast_congr fun item hitem => ?_)
        have hdepth := depth_le_depthOfItems hitem
        exact ih (by omega) (by omega)
      | tagged tag inner =>
        rw [depth] at hn hm
        rw [mergeTo, mergeTo, ih (m := m) (v := inner) (by omega) (by omega)]
      | _ => rfl

theorem mergeTo_eq_merge {n : Nat} {v : Value} (h : depth v ≤ n) : mergeTo n v = merge v :=
  mergeTo_eq_of_depth_le h (Nat.le_refl _)

/-- A mapping is merged by merging its entries and then each value. -/
theorem merge_map_eq_ok {w : Value} (h : merge (.map entries) = .ok w) :
    ∃ merged done, mergeEntries entries = .ok merged ∧ w = .map done ∧
      List.Forall₂ (fun e f => f.1 = e.1 ∧ merge e.2 = .ok f.2) merged done := by
  rw [merge, depth, mergeTo_succ_map] at h
  obtain ⟨merged, hmerged, h⟩ := exists_of_bind_eq_ok h
  obtain ⟨done, hdone, h⟩ := exists_of_bind_eq_ok h
  refine ⟨merged, done, hmerged, (Except.ok.inj h).symm, ?_⟩
  have hbelow : ∀ e ∈ merged, (mergeTo (depthOfEntries entries) e.2).map (e.1, ·) = (merge e.2).map (e.1, ·) := by
    intro e he
    rw [mergeTo_eq_merge (depth_le_of_mem_mergeEntries hmerged he)]
  rw [fromLast_congr hbelow] at hdone
  refine (forall₂_of_fromLast_eq_ok hdone).imp fun e f hf => ?_
  obtain ⟨value, hvalue, rfl⟩ := exists_of_map_eq_ok hf
  exact ⟨rfl, hvalue⟩

theorem merge_list_eq_ok {items : List Value} {w : Value} (h : merge (.list items) = .ok w) :
    ∃ done, w = .list done ∧ List.Forall₂ (fun v w => merge v = .ok w) items done := by
  rw [merge, depth, mergeTo_succ_list] at h
  obtain ⟨done, hdone, rfl⟩ := exists_of_map_eq_ok h
  have hbelow : ∀ item ∈ items, mergeTo (depthOfItems items) item = merge item :=
    fun item hitem => mergeTo_eq_merge (depth_le_depthOfItems hitem)
  rw [fromLast_congr hbelow] at hdone
  exact ⟨done, rfl, forall₂_of_fromLast_eq_ok hdone⟩

theorem forall₂_of_dataOfItems_eq_ok {items : List Value} {ds : List Data} (h : dataOfItems items = .ok ds) :
    List.Forall₂ (fun v d => toData v = .ok d) items ds := by
  induction items generalizing ds with
  | nil =>
    obtain rfl := Except.ok.inj h
    exact .nil
  | cons v items ih =>
    rw [dataOfItems] at h
    obtain ⟨d, hfirst, h⟩ := exists_of_bind_eq_ok h
    obtain ⟨rest, hrest, h⟩ := exists_of_bind_eq_ok h
    obtain rfl := Except.ok.inj h
    exact .cons hfirst (ih hrest)

theorem forall₂_of_dataOfEntries_eq_ok {named : List (String × Data)} (h : dataOfEntries entries = .ok named) :
    List.Forall₂ (fun e n => keyText? e.1 = .ok n.1 ∧ toData e.2 = .ok n.2) entries named := by
  induction entries generalizing named with
  | nil =>
    obtain rfl := Except.ok.inj h
    exact .nil
  | cons e entries ih =>
    rw [dataOfEntries] at h
    obtain ⟨name, hkey, h⟩ := exists_of_bind_eq_ok h
    obtain ⟨d, hfirst, h⟩ := exists_of_bind_eq_ok h
    obtain ⟨rest, hrest, h⟩ := exists_of_bind_eq_ok h
    obtain rfl := Except.ok.inj h
    exact .cons ⟨hkey, hfirst⟩ (ih hrest)

theorem toData_eq_map {v : Value} {entries : List (String × Data)} (h : v.toData = .ok (.map entries)) :
    (∃ es named, v = .map es ∧ dataOfEntries es = .ok named ∧ entries = Data.orderEntries named) ∨
      ∃ tag value data, v = .tagged tag value ∧ value.toData = .ok data ∧ entries = [("!" ++ String.ofList tag, data)] := by
  cases v with
  | map es =>
    rw [toData] at h
    obtain ⟨named, hnamed, hentries⟩ := exists_of_map_eq_ok h
    exact .inl ⟨es, named, rfl, hnamed, (Data.map.inj hentries).symm⟩
  | tagged tag value =>
    rw [toData] at h
    obtain ⟨data, hdata, hentries⟩ := exists_of_map_eq_ok h
    exact .inr ⟨tag, value, data, rfl, hdata, (Data.map.inj hentries).symm⟩
  | list items =>
    rw [toData] at h
    obtain ⟨_, -, hparts⟩ := exists_of_map_eq_ok h
    cases hparts
  | float f =>
    have hfloat := Except.ok.inj h
    split at hfloat <;> cases hfloat
  | null | bool _ | integer _ | text _ => cases Except.ok.inj h

theorem toData_eq_list {v : Value} {parts : List Data} (h : v.toData = .ok (.list parts)) :
    ∃ items, v = .list items ∧ dataOfItems items = .ok parts := by
  cases v with
  | list items =>
    rw [toData] at h
    obtain ⟨ds, hds, hparts⟩ := exists_of_map_eq_ok h
    exact ⟨items, rfl, Data.list.inj hparts ▸ hds⟩
  | map es =>
    rw [toData] at h
    obtain ⟨_, -, hentries⟩ := exists_of_map_eq_ok h
    cases hentries
  | tagged tag value =>
    rw [toData] at h
    obtain ⟨_, -, hentries⟩ := exists_of_map_eq_ok h
    cases hentries
  | float f =>
    have hfloat := Except.ok.inj h
    split at hfloat <;> cases hfloat
  | null | bool _ | integer _ | text _ => cases Except.ok.inj h

/-- The data of a value once all mappings in it are merged. -/
def Decodes (v : Value) (d : Data) : Prop := ∃ merged, merge v = .ok merged ∧ toData merged = .ok d

/-- The data of a mapping is that of its merged entries. -/
theorem Decodes.map_inv {d : Data} (h : Decodes (.map entries) d) :
    ∃ merged named, mergeEntries entries = .ok merged ∧ d = .map (Data.orderEntries named) ∧
      List.Forall₂ (fun e n => keyText? e.1 = .ok n.1 ∧ Decodes e.2 n.2) merged named := by
  obtain ⟨w, hw, hd⟩ := h
  obtain ⟨merged, done, hmerged, rfl, hbelow⟩ := merge_map_eq_ok hw
  rw [toData] at hd
  obtain ⟨named, hnamed, rfl⟩ := exists_of_map_eq_ok hd
  refine ⟨merged, named, hmerged, rfl, ?_⟩
  have hdata := forall₂_of_dataOfEntries_eq_ok hnamed
  clear hnamed hmerged hw hd
  induction hbelow generalizing named with
  | nil =>
    cases hdata
    exact .nil
  | cons hfirst _ ih =>
    cases hdata with
    | cons hname hrest => exact .cons ⟨hfirst.1 ▸ hname.1, _, hfirst.2, hname.2⟩ (ih _ hrest)

theorem Decodes.list_inv {items : List Value} {d : Data} (h : Decodes (.list items) d) :
    ∃ ds, d = .list ds ∧ List.Forall₂ Decodes items ds := by
  obtain ⟨w, hw, hd⟩ := h
  obtain ⟨done, rfl, hbelow⟩ := merge_list_eq_ok hw
  rw [toData] at hd
  obtain ⟨ds, hitems, rfl⟩ := exists_of_map_eq_ok hd
  refine ⟨ds, rfl, ?_⟩
  have hdata := forall₂_of_dataOfItems_eq_ok hitems
  clear hitems hw hd
  induction hbelow generalizing ds with
  | nil =>
    cases hdata
    exact .nil
  | cons hfirst _ ih =>
    cases hdata with
    | cons hitem hrest => exact .cons ⟨_, hfirst, hitem⟩ (ih _ hrest)

/-- What decodes to a mapping is a mapping, or tagged. -/
theorem Decodes.exists_map {value : Value} {entries : List (String × Data)} (h : value.Decodes (.map entries)) :
    (∃ written, value = .map written) ∨ ∃ tag inner, value = .tagged tag inner := by
  obtain ⟨merged, hmerged, hdata⟩ := h
  cases value with
  | map written => exact .inl ⟨written, rfl⟩
  | tagged tag inner => exact .inr ⟨tag, inner, rfl⟩
  | list items =>
    obtain ⟨done, rfl, -⟩ := merge_list_eq_ok hmerged
    rcases toData_eq_map hdata with ⟨_, _, h, -⟩ | ⟨_, _, _, h, -⟩ <;> cases h
  | _ =>
    obtain rfl := Except.ok.inj hmerged
    rcases toData_eq_map hdata with ⟨_, _, h, -⟩ | ⟨_, _, _, h, -⟩ <;> cases h

theorem Decodes.exists_list {value : Value} {parts : List Data} (h : value.Decodes (.list parts)) :
    ∃ items, value = .list items := by
  cases value with
  | list items => exact ⟨items, rfl⟩
  | map written =>
    obtain ⟨_, _, _, hdata, -⟩ := h.map_inv
    cases hdata
  | tagged tag inner =>
    obtain ⟨merged, hmerged, hdata⟩ := h
    obtain ⟨items, rfl, -⟩ := toData_eq_list hdata
    obtain ⟨_, -, htagged⟩ := exists_of_map_eq_ok hmerged
    cases htagged
  | _ =>
    obtain ⟨merged, hmerged, hdata⟩ := h
    obtain rfl := Except.ok.inj hmerged
    obtain ⟨_, h, -⟩ := toData_eq_list hdata
    cases h

private theorem eq_text_of_keyText? {key : Value} {name : String} (hkey : ∃ cs, key = .text cs)
    (h : keyText? key = .ok name) : key = .text name.toList := by
  obtain ⟨cs, rfl⟩ := hkey
  rw [← Except.ok.inj h, String.toList_ofList]

private theorem forall₂_names {named : List (String × Data)} (htexts : ∀ e ∈ merged, ∃ cs, e.1 = .text cs)
    (h : List.Forall₂ (fun e n => keyText? e.1 = .ok n.1 ∧ Decodes e.2 n.2) merged named) :
    List.Forall₂ (fun e n => e.1 = .text n.1.toList ∧ Decodes e.2 n.2) merged named := by
  induction h with
  | nil => exact .nil
  | cons hfirst _ ih =>
    obtain ⟨hkey, hrest⟩ := List.forall_mem_cons.mp htexts
    exact .cons ⟨eq_text_of_keyText? hkey hfirst.1, hfirst.2⟩ (ih hrest)

/-- A name means in the data of a mapping the data of what it means in the merged mapping. -/
theorem Decodes.rel_lookup? {d : Data} (hnamed : Named entries)
    (hsources : ∀ more ∈ broughtIn entries, ∀ e ∈ more, ∃ cs, e.1 = .text cs) (h : Decodes (.map entries) d) :
    ∃ merged data, mergeEntries entries = .ok merged ∧ d = .map data ∧
      ∀ name, Option.Rel Decodes (ofName? name merged) (Data.lookup? data name) := by
  obtain ⟨merged, named, hmerged, rfl, hbelow⟩ := h.map_inv
  have hmergedNamed := hnamed.mergeEntries hsources hmerged
  have hnames := forall₂_names hmergedNamed.texts hbelow
  have hnodup : (named.map Prod.fst).Nodup := hmergedNamed.nodup_of_forall₂ (hnames.imp fun _ _ h => h.1)
  refine ⟨merged, _, hmerged, rfl, fun name => ?_⟩
  rw [Data.lookup?_orderEntries hnodup, Data.lookup?]
  have hrel : Option.Rel (fun value n => Decodes value n.2) (ofName? name merged) (named.find? (·.1 == name)) :=
    rel_ofName?_find? hnames name
  obtain ⟨he, hn⟩ | ⟨value, n, he, hn, hvalue⟩ := rel_cases hrel
  · rw [he, hn]
    exact .none
  · rw [he, hn]
    exact .some hvalue

end Load.Value

end PipelineLint
