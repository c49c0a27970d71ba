import PipelineLint.NameMap
import Mathlib.Data.List.Induction
import Mathlib.Data.List.Nodup

/-! # Maps of definitions

What a map holds after definitions were inserted one after the other, where the first definition of a name counts
and where the last one does. In both cases the names stand in the order in which they first appear.
-/

namespace PipelineLint

theorem eraseDups_concat (xs : List String) (x : String) :
    (xs ++ [x]).eraseDups = if x ∈ xs then xs.eraseDups else xs.eraseDups ++ [x] := by
  rw [List.eraseDups_append]
  split
  · next h => simp [List.removeAll, h]
  · next h => simp [List.removeAll, h, List.eraseDups_cons]

theorem nodup_eraseDups (xs : List String) : xs.eraseDups.Nodup := by
  induction xs using List.reverseRecOn with
  | nil => exact List.nodup_nil
  | append_singleton xs x ih =>
    rw [eraseDups_concat]
    split
    · exact ih
    · next hx => exact ih.append (List.nodup_singleton x) (by simpa using hx)

namespace NameMap

variable {α : Type} {m : NameMap α} {defs : List α} {nameOf : α → String} {a : α}

theorem mem_keys_iff {name : String} : name ∈ m.keys ↔ (m.get? name).isSome = true := by
  rw [← contains_eq_isSome_get?, contains, keys]
  simp

theorem mem_values_of_get? {name : String} (h : m.get? name = some a) : a ∈ m.values := by
  obtain ⟨entry, hentry, rfl⟩ := Option.map_eq_some_iff.mp h
  exact List.mem_map_of_mem (List.mem_of_find?_eq_some hentry)

/-- Where names are distinct, the entry of a name has its value. -/
theorem eq_of_mem_entries (hnodup : m.keys.Nodup) {name : String} {b : α} (hmem : (name, b) ∈ m.entries)
    (hget : m.get? name = some a) : b = a := by
  obtain ⟨entry, hfind, rfl⟩ := Option.map_eq_some_iff.mp hget
  have hname : entry.1 = name := by simpa using List.find?_some hfind
  have hentry := List.inj_on_of_nodup_map hnodup hmem (List.mem_of_find?_eq_some hfind) hname.symm
  exact congrArg Prod.snd hentry

private theorem keys_setIn (name : String) (value : α) (entries : List (String × α)) :
    (setIn name value entries).map (·.1) =
      if name ∈ entries.map (·.1) then entries.map (·.1) else entries.map (·.1) ++ [name] := by
  induction entries with
  | nil => rfl
  | cons entry entries ih =>
    by_cases h : entry.1 = name
    · simp [setIn, h]
    · have hne : ¬name = entry.1 := fun heq => h heq.symm
      simp only [setIn, beq_iff_eq, h, if_false, List.map_cons, ih, List.mem_cons, hne, false_or]
      split <;> rfl

theorem keys_insert (m : NameMap α) (name : String) (value : α) :
    (m.insert name value).keys = if name ∈ m.keys then m.keys else m.keys ++ [name] :=
  keys_setIn name value m.entries

theorem keys_modify (m : NameMap α) (name : String) (f : α → α) : (m.modify name f).keys = m.keys := by
  rw [keys, modify, List.map_map, keys]
  refine List.map_congr_left fun entry _ => ?_
  rw [Function.comp_apply]
  split <;> rfl

/-- The map holds for each name its first definition. -/
structure HoldsFirst (nameOf : α → String) (defs : List α) (m : NameMap α) : Prop where
  keys : m.keys = (defs.map nameOf).eraseDups
  get? : ∀ name, m.get? name = defs.find? (nameOf · == name)

structure HoldsLast (nameOf : α → String) (defs : List α) (m : NameMap α) : Prop where
  keys : m.keys = (defs.map nameOf).eraseDups
  get? : ∀ name, m.get? name = defs.reverse.find? (nameOf · == name)

theorem HoldsFirst.empty : HoldsFirst nameOf [] (∅ : NameMap α) := ⟨rfl, fun _ => rfl⟩

theorem HoldsLast.empty : HoldsLast nameOf [] (∅ : NameMap α) := ⟨rfl, fun _ => rfl⟩

/-- A further definition of a name that has one changes nothing. -/
theorem HoldsFirst.skip (h : HoldsFirst nameOf defs m) (taken : m.get? (nameOf a) ≠ none) :
    HoldsFirst nameOf (defs ++ [a]) m where
  keys := by
    have hmem : nameOf a ∈ defs.map nameOf := by
      rw [← List.mem_eraseDups, ← h.keys, mem_keys_iff]
      exact Option.isSome_iff_ne_none.mpr taken
    rw [List.map_append, List.map_singleton, eraseDups_concat, if_pos hmem, h.keys]
  get? := by
    intro name
    rw [List.find?_append, h.get? name]
    cases hfind : defs.find? (nameOf · == name) with
    | some first => rfl
    | none =>
      have hne : nameOf a ≠ name := by
        rintro rfl
        exact taken ((h.get? _).trans hfind)
      simp [hne]

theorem HoldsFirst.insert (h : HoldsFirst nameOf defs m) (free : m.get? (nameOf a) = none) :
    HoldsFirst nameOf (defs ++ [a]) (m.insert (nameOf a) a) where
  keys := by
    have hkeys : nameOf a ∉ m.keys := by simp [mem_keys_iff, free]
    have hmem : nameOf a ∉ defs.map nameOf := by rwa [← List.mem_eraseDups, ← h.keys]
    rw [keys_insert, if_neg hkeys, List.map_append, List.map_singleton, eraseDups_concat, if_neg hmem, h.keys]
  get? := by
    intro name
    rw [List.find?_append]
    by_cases hname : name = nameOf a
    · subst hname
      simp [get?_insert_self, ← h.get?, free]
    · rw [get?_insert_of_ne m a hname, h.get? name]
      simp [Ne.symm hname]

theorem HoldsLast.insert (h : HoldsLast nameOf defs m) (a : α) :
    HoldsLast nameOf (defs ++ [a]) (m.insert (nameOf a) a) where
  keys := by
    rw [keys_insert, h.keys, List.map_append, List.map_singleton, eraseDups_concat]
    simp only [List.mem_eraseDups]
  get? := by
    intro name
    rw [List.reverse_append, List.reverse_singleton, List.singleton_append]
    by_cases hname : name = nameOf a
    · subst hname
      simp [get?_insert_self]
    · rw [get?_insert_of_ne m a hname, List.find?_cons_of_neg (by simpa using Ne.symm hname), h.get? name]

theorem holdsLast_ofList (nameOf : α → String) (defs : List α) :
    HoldsLast nameOf defs (ofList (defs.map fun a => (nameOf a, a))) := by
  rw [ofList, List.foldl_map]
  induction defs using List.reverseRecOn with
  | nil => exact .empty
  | append_singleton defs a ih =>
    rw [List.foldl_append]
    exact ih.insert a

end NameMap

end PipelineLint
