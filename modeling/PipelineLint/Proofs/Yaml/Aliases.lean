import PipelineLint.Proofs.Document.Findings
import PipelineLint.Proofs.NameMap
import PipelineLint.Proofs.Yaml.Cursor
import Mathlib.Data.List.Perm.Basic

/-! # No alias is lost

Every alias of a tree either refers to the anchor with its name or is unknown, and is told once, however often a name is
given to other values: `aliases_partitioned`.
-/

namespace PipelineLint

/-- Things with a name from a list, name by name, and then the others, are all of them. -/
theorem flatMap_filter_append_perm {α : Type} (nameOf : α → String) {names : List String} (hnames : names.Nodup)
    (xs : List α) :
    ((names.flatMap fun name => xs.filter (nameOf · == name)) ++ xs.filter fun x => !names.contains (nameOf x)).Perm xs := by
  induction names generalizing xs with
  | nil => simp
  | cons name names ih =>
    obtain ⟨hnone, hrest⟩ := List.nodup_cons.mp hnames
    have hothers := ih hrest (xs.filter fun x => !(nameOf x == name))
    have hsame : (names.flatMap fun other => (xs.filter fun x => !(nameOf x == name)).filter (nameOf · == other)) =
        names.flatMap fun other => xs.filter (nameOf · == other) := by
      refine List.flatMap_congr fun other hother => ?_
      rw [List.filter_filter]
      refine List.filter_congr fun x _ => ?_
      by_cases hx : nameOf x = other
      · have hne : nameOf x ≠ name := fun heq => hnone (heq ▸ hx ▸ hother)
        simp [hx, hx ▸ hne]
      · simp [hx]
    have hlast : ((xs.filter fun x => !(nameOf x == name)).filter fun x => !names.contains (nameOf x)) =
        xs.filter fun x => !(name :: names).contains (nameOf x) := by
      rw [List.filter_filter]
      refine List.filter_congr fun x _ => ?_
      by_cases hx : nameOf x = name <;> simp [hx]
    rw [hsame, hlast] at hothers
    rw [List.flatMap_cons, List.append_assoc]
    exact (hothers.append_left _).trans (List.filter_append_perm (nameOf · == name) xs)

namespace Yaml.Anchors

variable (t : Tree)

/-- The names of the anchors of a tree, in document order, each as often as it is given. -/
def anchoredNames : List String := (t.root.places.filterMap (definition? t)).map (·.name)

variable {t}

/-- The names that have been given are the names in both maps, in the order in which they were first given. -/
structure Named (names : List String) (as : Anchors) : Prop where
  table : as.table.keys = names.eraseDups
  values : as.values.keys = names.eraseDups

private theorem Named.define {names : List String} {as : Anchors} (h : Named names as) (place : Cursor) :
    Named (names ++ ((definition? t place).map (·.name)).toList)
      (if place.node.kind = .anchor then define t as place else as) := by
  rw [define_eq]
  cases definition? t place with
  | none => simpa using h
  | some d =>
    have htable := NameMap.keys_insert as.table d.name (d.anchor [])
    have hvalues := NameMap.keys_insert as.values d.name d.value
    rw [h.table] at htable
    rw [h.values] at hvalues
    refine ⟨htable.trans ?_, hvalues.trans ?_⟩
    all_goals
      simp only [Option.map_some, Option.toList_some, List.mem_eraseDups]
      exact (eraseDups_concat names d.name).symm

private theorem Named.refer {names : List String} {as : Anchors} (h : Named names as) (n : Node) :
    Named names (refer t as n) := by
  simp only [Anchors.refer]
  split
  · exact ⟨(NameMap.keys_modify _ _ _).trans h.table, h.values⟩
  · exact ⟨h.table, h.values⟩

private theorem Named.foldl_define {names : List String} {as : Anchors} (h : Named names as) (places : List Cursor) :
    Named (names ++ (places.filterMap (definition? t)).map (·.name))
      (places.foldl (fun as place => if place.node.kind = .anchor then Anchors.define t as place else as) as) := by
  induction places generalizing names as with
  | nil => simpa using h
  | cons place places ih =>
    have hrest := ih (h.define (t := t) place)
    cases hd : definition? t place with
    | none => simpa [hd] using hrest
    | some d => simpa [hd] using hrest

/-- Aliases add no names, so the names in both maps are those of the anchors. -/
theorem named_ofTree (t : Tree) : Named (anchoredNames t) (ofTree t) := by
  have hempty : Named [] {} := ⟨rfl, rfl⟩
  have hnames : Named ([] ++ anchoredNames t) _ := hempty.foldl_define t.root.places
  rw [ofTree]
  refine List.foldlRecOn (motive := Named (anchoredNames t)) _ _ ?_ fun as has n _ => has.refer n
  simpa [List.foldl_filter] using hnames

/-- A name is given by an anchor that has the name and a node around it, and only if it is not empty. -/
theorem mem_anchoredNames_iff {name : String} : name ∈ anchoredNames t ↔ name ≠ "" ∧
    ∃ place ∈ t.root.places, place.node.kind = .anchor ∧ place.parentNode?.isSome ∧ anchorName t place.node = name := by
  rw [anchoredNames, List.mem_map]
  constructor
  · rintro ⟨d, hd, rfl⟩
    obtain ⟨place, hplace, hdefinition⟩ := List.mem_filterMap.mp hd
    rw [definition?] at hdefinition
    split at hdefinition
    · next value hvalue =>
      obtain ⟨⟨hkind, hname⟩, heq⟩ := Option.ite_none_right_eq_some.mp hdefinition
      obtain rfl := Option.some.inj heq
      exact ⟨by simpa using hname, place, hplace, hkind, by simp [hvalue], rfl⟩
    · cases hdefinition
  · rintro ⟨hne, place, hplace, hkind, hparent, rfl⟩
    obtain ⟨value, hvalue⟩ := Option.isSome_iff_exists.mp hparent
    refine ⟨⟨anchorName t place.node, place.node.range, value⟩, List.mem_filterMap.mpr ⟨place, hplace, ?_⟩, rfl⟩
    simp [definition?, hvalue, hkind, hne]

def aliasesOf (t : Tree) : List Node := t.root.preorder.filter (·.kind = .alias)

private theorem aliases_places (t : Tree) : aliases t.root.places = aliasesOf t := by
  rw [aliases, aliasesOf, Cursor.map_node_places]

/-- Whatever the tree and however often a name is given again: the names of anchors are the names in both maps. Each
alias with such a name is told once at the anchor with the name, and each other alias once among the unknown ones, in
document order; so together they are all aliases of the tree. And a configuration has one finding for each unknown
alias. -/
theorem aliases_partitioned (t : Tree) :
    ((ofTree t).table.keys = (ofTree t).values.keys ∧ (ofTree t).table.keys.Nodup ∧
      ∀ name, name ∈ (ofTree t).table.keys ↔ name ≠ "" ∧ ∃ place ∈ t.root.places,
        place.node.kind = .anchor ∧ place.parentNode?.isSome ∧ anchorName t place.node = name) ∧
    (∀ name a, (ofTree t).table.get? name = some a →
      a.references = ((aliasesOf t).filter (aliasName t · == name)).map (·.range)) ∧
    (ofTree t).unknown = ((aliasesOf t).filter fun n => !(ofTree t).table.keys.contains (aliasName t n)).map
      (fun n => ⟨aliasName t n, n.range⟩) ∧
    ((ofTree t).table.values.flatMap (·.references) ++ (ofTree t).unknown.map (·.range)).Perm
      ((aliasesOf t).map (·.range)) ∧
    ∀ g d, Document.parseTree g .config t = .ok d → d.diagnostics.filter (Check.hasCode .unknownAnchor) =
      (ofTree t).unknown.map fun a =>
        .error .unknownAnchor a.range ("unknown anchor '" ++ a.text ++ "' referenced") := by
  have hnamed := named_ofTree t
  have hreferred := referred_ofTree t
  rw [aliases_places] at hreferred
  have hnodup : (ofTree t).table.keys.Nodup := hnamed.table ▸ nodup_eraseDups _
  have hreferences (name : String) (a : Anchor) (ha : (ofTree t).table.get? name = some a) :
      a.references = ((aliasesOf t).filter (aliasName t · == name)).map (·.range) := by
    rw [hreferred.table] at ha
    obtain ⟨d, -, rfl⟩ := Option.map_eq_some_iff.mp ha
    rfl
  have hunknown : (ofTree t).unknown =
      ((aliasesOf t).filter fun n => !(ofTree t).table.keys.contains (aliasName t n)).map
        (fun n => ⟨aliasName t n, n.range⟩) := by
    rw [hreferred.unknown]
    refine congrArg _ (List.filter_congr fun n _ => ?_)
    have hkey : aliasName t n ∈ (ofTree t).table.keys ↔ (lastDefinition? t (aliasName t n) t.root.places).isSome := by
      rw [NameMap.mem_keys_iff, hreferred.table, Option.isSome_map]
    cases hlast : lastDefinition? t (aliasName t n) t.root.places <;> simp [hlast] at hkey ⊢ <;> exact hkey
  have htold : (ofTree t).table.values.flatMap (·.references) =
      ((ofTree t).table.keys.flatMap fun name => (aliasesOf t).filter (aliasName t · == name)).map (·.range) := by
    rw [NameMap.values, NameMap.keys, List.flatMap_map, List.flatMap_map, List.map_flatMap]
    refine List.flatMap_congr fun entry hentry => hreferences entry.1 entry.2 ?_
    obtain ⟨a, ha⟩ := Option.isSome_iff_exists.mp (NameMap.mem_keys_iff.mp (List.mem_map_of_mem hentry))
    rw [ha, NameMap.eq_of_mem_entries hnodup hentry ha]
  refine ⟨⟨hnamed.table.trans hnamed.values.symm, hnodup, fun name => ?_⟩, hreferences, hunknown, ?_,
    fun g d hd => Read.filter_unknownAnchor hd⟩
  · rw [hnamed.table, List.mem_eraseDups, mem_anchoredNames_iff]
  · have hall := (flatMap_filter_append_perm (aliasName t) hnodup (aliasesOf t)).map (·.range)
    rw [List.map_append, ← htold] at hall
    rw [hunknown, List.map_map]
    exact hall

end Yaml.Anchors

end PipelineLint
