import PipelineLint.Concrete.Grammar.Stream
import PipelineLint.Document.Reads

/-! # What aliases mean

An alias means the value of the last anchor with its name in the whole tree, whether that anchor stands
before the alias or after it. YAML has it mean the last such anchor before the alias, and lets an alias without
one mean nothing. `alias_means_last_definition` says what the anchors of a tree hold, what following an alias
gives, and exactly when the two readings agree.
-/

namespace PipelineLint.Yaml

/-- What an anchor says: the value that a name is given to. -/
structure Definition where
  name : String
  range : Range
  value : Node

namespace Definition

def anchor (d : Definition) (references : List Range) : Anchor :=
  { name := d.name, definition := d.range, references, value := .ofNode d.value, valueRange := d.value.range }

end Definition

namespace Anchors

variable (t : Tree)

/-- The definition at a place: an anchor with a name, and a node around it. -/
def definition? (place : Cursor) : Option Definition :=
  match place.parentNode? with
  | some value =>
    if place.node.kind = .anchor ∧ (anchorName t place.node).isEmpty = false then
      some ⟨anchorName t place.node, place.node.range, value⟩
    else none
  | none => none

/-- The last definition of a name among some places in document order. -/
def lastDefinition? (name : String) (places : List Cursor) : Option Definition :=
  places.reverse.findSome? fun place => (definition? t place).filter (·.name == name)

def aliases (places : List Cursor) : List Node :=
  (places.map (·.node)).filter (·.kind = .alias)

def references (name : String) (places : List Cursor) : List Range :=
  ((aliases places).filter fun n => aliasName t n == name).map (·.range)

variable {t}

theorem lastDefinition?_concat (name : String) (places : List Cursor) (place : Cursor) :
    lastDefinition? t name (places ++ [place]) =
      ((definition? t place).filter (·.name == name)).or (lastDefinition? t name places) := by
  simp only [lastDefinition?, List.reverse_append, List.reverse_cons, List.reverse_nil, List.nil_append,
    List.singleton_append, List.findSome?_cons]
  cases (definition? t place).filter (·.name == name) <;> rfl

theorem lastDefinition?_append (name : String) (before after : List Cursor) :
    lastDefinition? t name (before ++ after) =
      (lastDefinition? t name after).or (lastDefinition? t name before) := by
  simp only [lastDefinition?, List.reverse_append, List.findSome?_append]

theorem define_eq (as : Anchors) (place : Cursor) :
    (if place.node.kind = .anchor then define t as place else as) = (definition? t place).elim as fun d =>
      { as with table := as.table.insert d.name (d.anchor []), values := as.values.insert d.name d.value } := by
  rw [definition?, define]
  cases place.parentNode? with
  | none => simp
  | some value =>
    by_cases hkind : place.node.kind = .anchor
    · by_cases hname : (anchorName t place.node).isEmpty = true
      · simp [hkind, hname]
      · simp [hkind, hname, Definition.anchor]
    · simp [hkind]

/-- The definitions of some places have been taken in, and no aliases. -/
structure Defined (t : Tree) (places : List Cursor) (as : Anchors) : Prop where
  values : ∀ name, as.values.get? name = (lastDefinition? t name places).map (·.value)
  table : ∀ name, as.table.get? name = (lastDefinition? t name places).map (·.anchor [])
  unknown : as.unknown = []

private theorem Defined.concat {places : List Cursor} {as : Anchors} (h : Defined t places as) (place : Cursor) :
    Defined t (places ++ [place]) (if place.node.kind = .anchor then define t as place else as) := by
  rw [define_eq]
  cases hd : definition? t place with
  | none =>
    have hlast : ∀ name, lastDefinition? t name (places ++ [place]) = lastDefinition? t name places := by
      intro name
      rw [lastDefinition?_concat, hd]
      rfl
    exact ⟨fun name => (h.values name).trans (by rw [hlast]), fun name => (h.table name).trans (by rw [hlast]), h.unknown⟩
  | some d =>
    have hlast : ∀ name, lastDefinition? t name (places ++ [place]) =
        if d.name = name then some d else lastDefinition? t name places := by
      intro name
      rw [lastDefinition?_concat, hd]
      by_cases hname : d.name = name <;> simp [Option.filter, hname]
    rw [Option.elim_some]
    refine ⟨fun name => ?_, fun name => ?_, h.unknown⟩
    · by_cases hname : d.name = name
      · subst hname
        simp [hlast, NameMap.get?_insert_self]
      · simp [hlast, hname, NameMap.get?_insert_of_ne _ _ (Ne.symm hname), h.values]
    · by_cases hname : d.name = name
      · subst hname
        simp [hlast, NameMap.get?_insert_self]
      · simp [hlast, hname, NameMap.get?_insert_of_ne _ _ (Ne.symm hname), h.table]

private theorem defined_foldl {before places : List Cursor} {as : Anchors} (h : Defined t before as) :
    Defined t (before ++ places) ((places.filter (·.node.kind = .anchor)).foldl (define t) as) := by
  induction places generalizing before as with
  | nil => simpa using h
  | cons place places ih =>
    have hstep := ih (h.concat place)
    by_cases hkind : place.node.kind = .anchor
    · simpa [hkind] using hstep
    · simpa [hkind] using hstep

/-- All definitions of some places have been taken in, and some aliases. -/
structure Referred (t : Tree) (places : List Cursor) (seen : List Node) (as : Anchors) : Prop where
  values : ∀ name, as.values.get? name = (lastDefinition? t name places).map (·.value)
  table : ∀ name, as.table.get? name = (lastDefinition? t name places).map
    (·.anchor ((seen.filter fun n => aliasName t n == name).map (·.range)))
  unknown : as.unknown = (seen.filter fun n => (lastDefinition? t (aliasName t n) places).isNone).map
    fun n => ⟨aliasName t n, n.range⟩

private theorem Referred.concat {places : List Cursor} {seen : List Node} {as : Anchors}
    (h : Referred t places seen as) (n : Node) : Referred t places (seen ++ [n]) (refer t as n) := by
  have hknown : as.table.contains (aliasName t n) = (lastDefinition? t (aliasName t n) places).isSome := by
    rw [NameMap.contains_eq_isSome_get?, h.table, Option.isSome_map]
  cases hd : lastDefinition? t (aliasName t n) places with
  | none =>
    have hsame : refer t as n = { as with unknown := as.unknown ++ [⟨aliasName t n, n.range⟩] } := by
      simp [refer, hknown, hd]
    rw [hsame]
    refine ⟨h.values, fun name => ?_, ?_⟩
    · rw [h.table]
      by_cases hname : aliasName t n = name
      · simp [← hname, hd]
      · simp [hname]
    · simp [h.unknown, hd]
  | some d =>
    have htaken : refer t as n = { as with
        table := as.table.modify (aliasName t n) fun a => { a with references := a.references ++ [n.range] } } := by
      simp [refer, hknown, hd]
    rw [htaken]
    refine ⟨h.values, fun name => ?_, ?_⟩
    · by_cases hname : aliasName t n = name
      · subst hname
        simp [NameMap.get?_modify_self, h.table, hd, Definition.anchor]
      · simp [NameMap.get?_modify_of_ne _ _ (Ne.symm hname), h.table, hname]
    · simp [h.unknown, hd]

private theorem referred_foldl {places : List Cursor} {seen ns : List Node} {as : Anchors}
    (h : Referred t places seen as) : Referred t places (seen ++ ns) (ns.foldl (refer t) as) := by
  induction ns generalizing seen as with
  | nil => simpa using h
  | cons n ns ih => simpa using ih (h.concat n)

/-- The anchors of a tree hold all its definitions and all its aliases. -/
theorem referred_ofTree (t : Tree) :
    Referred t t.root.places (aliases t.root.places) (ofTree t) := by
  have hdefined : Defined t t.root.places
      ((t.root.places.filter (·.node.kind = .anchor)).foldl (define t) {}) := by
    have hempty : Defined t [] {} := ⟨fun _ => rfl, fun _ => rfl, rfl⟩
    have hall : Defined t ([] ++ t.root.places) _ := defined_foldl hempty
    simpa using hall
  have hnone : Referred t t.root.places []
      ((t.root.places.filter (·.node.kind = .anchor)).foldl (define t) {}) :=
    ⟨hdefined.values, by simpa using hdefined.table, by simpa using hdefined.unknown⟩
  have haliases : aliases t.root.places =
      (t.root.places.filter (·.node.kind = .alias)).map (·.node) := by
    rw [aliases, List.filter_map]
    rfl
  have hall : Referred t t.root.places ([] ++ aliases t.root.places) _ := referred_foldl hnone
  rw [ofTree, ← haliases]
  simpa using hall

/-- An alias is unknown just if its name is defined neither before it nor after it. -/
theorem mem_unknown_iff {before after : List Cursor} {place : Cursor}
    (hplaces : t.root.places = before ++ place :: after) (hkind : place.node.kind = .alias) :
    (⟨aliasName t place.node, place.node.range⟩ : Located) ∈ (ofTree t).unknown ↔
      lastDefinition? t (aliasName t place.node) t.root.places = none := by
  rw [(referred_ofTree t).unknown, List.mem_map]
  constructor
  · rintro ⟨n, hn, heq⟩
    have hname : aliasName t n = aliasName t place.node := congrArg Located.text heq
    have hnone := (List.mem_filter.mp hn).2
    rw [hname] at hnone
    simpa using hnone
  · intro hnone
    refine ⟨place.node, List.mem_filter.mpr ⟨?_, by simp [hnone]⟩, rfl⟩
    rw [hplaces, aliases]
    simp [hkind]

/-- Of the findings about the text only those about aliases without an anchor have the code for them. -/
theorem filter_syntaxFindings (v : View) (as : Anchors) :
    (Read.syntaxFindings v as).filter (·.code = some .unknownAnchor) = as.unknown.map fun a =>
      .error .unknownAnchor a.range ("unknown anchor '" ++ a.text ++ "' referenced") := by
  have hmerge : ∀ n d, Read.badMerge? v n = some d → d.code = some .invalidMerge := by
    intro n d hd
    obtain ⟨p, -, hd⟩ := Option.bind_eq_some_iff.mp hd
    obtain ⟨-, hd⟩ := Option.ite_none_right_eq_some.mp hd
    exact Option.some.inj hd ▸ rfl
  have hplace : ∀ place d, Read.syntaxFinding? v place = some d → d.code ≠ some .unknownAnchor := by
    intro place d hd
    rw [Read.syntaxFinding?] at hd
    split at hd
    · obtain ⟨-, hd⟩ := Option.ite_none_left_eq_some.mp hd
      exact Option.some.inj hd ▸ nofun
    · split at hd
      · exact Option.some.inj hd ▸ nofun
      · obtain ⟨-, hd⟩ := Option.ite_none_right_eq_some.mp hd
        rw [hmerge _ _ hd]
        nofun
  have hfirst : (v.tree.root.places.filterMap (Read.syntaxFinding? v)).filter
      (·.code = some .unknownAnchor) = [] := by
    rw [List.filter_eq_nil_iff]
    intro d hd
    obtain ⟨place, -, hd⟩ := List.mem_filterMap.mp hd
    simpa using hplace place d hd
  have hlast : (as.unknown.map fun a => Diagnostic.error .unknownAnchor a.range
      ("unknown anchor '" ++ a.text ++ "' referenced")).filter (·.code = some .unknownAnchor) =
      as.unknown.map fun a =>
        .error .unknownAnchor a.range ("unknown anchor '" ++ a.text ++ "' referenced") := by
    rw [List.filter_eq_self]
    intro d hd
    obtain ⟨a, -, rfl⟩ := List.mem_map.mp hd
    rfl
  rw [Read.syntaxFindings, List.filter_append, List.filter_append, hfirst, hlast]
  split <;> rfl

/-- Whatever the tree, an anchor's entry is that of the last definition of its name and refers to all aliases
with the name; the content of an alias and what it is resolved to are those of the value of that definition; and
an alias is found to be unknown just if its name is defined neither before it nor after it. So an alias means what
YAML has it mean, the value of the last definition before it or nothing, just if no definition after it gives the
name to another value. -/
theorem alias_means_last_definition (t : Tree) :
    (∀ name, (ofTree t).table.get? name = (lastDefinition? t name t.root.places).map
      (·.anchor (references t name t.root.places))) ∧
    ((Read.syntaxFindings (View.ofTree t) (ofTree t)).filter (·.code = some .unknownAnchor) =
      (ofTree t).unknown.map fun a =>
        .error .unknownAnchor a.range ("unknown anchor '" ++ a.text ++ "' referenced")) ∧
    ∀ before place after, t.root.places = before ++ place :: after → place.node.kind = .alias →
      let last := lastDefinition? t (aliasName t place.node)
      ((View.ofTree t).content? place.node =
        (last t.root.places).bind fun d => (View.ofTree t).contentWithin maxAliasSteps d.value) ∧
      (∀ n, View.aliasOf? n = some place.node → (View.ofTree t).resolve n =
        ((last t.root.places).map fun d =>
          (View.ofTree t).resolveWithin (maxAliasSteps - 1) d.value).getD n) ∧
      ((⟨aliasName t place.node, place.node.range⟩ : Located) ∈ (ofTree t).unknown ↔
        last before = none ∧ last after = none) ∧
      ((last t.root.places).map (·.value) = (last before).map (·.value) ↔
        ∀ d ∈ last after, ∃ e ∈ last before, e.value = d.value) := by
  have hreferred := referred_ofTree t
  refine ⟨hreferred.table, filter_syntaxFindings _ _, ?_⟩
  intro before place after hplaces hkind last
  have hvalue : (View.ofTree t).values.get? ((View.ofTree t).nameOfAlias place.node) =
      (last t.root.places).map (·.value) := hreferred.values _
  have hlast : last t.root.places = (last after).or (last before) := by
    have halias : definition? t place = none := by
      rw [definition?]
      cases place.parentNode? <;> simp [hkind]
    have hsplit : before ++ place :: after = before ++ [place] ++ after := by simp
    rw [hplaces, hsplit]
    show lastDefinition? t _ _ = _
    rw [lastDefinition?_append, lastDefinition?_concat, halias]
    rfl
  refine ⟨?_, ?_, ?_, ?_⟩
  · rw [View.content?, View.contentWithin, hkind]
    simp only [hvalue]
    cases last t.root.places <;> rfl
  · intro n hn
    rw [View.resolve, maxAliasSteps, View.resolveWithin, hn]
    simp only [hvalue]
    cases last t.root.places <;> rfl
  · rw [mem_unknown_iff hplaces hkind]
    show last t.root.places = none ↔ _
    rw [hlast, Option.or_eq_none_iff, and_comm]
  · rw [hlast]
    cases hafter : last after with
    | none => simp
    | some d => cases hbefore : last before <;> simp [eq_comm]

/-- A name that is defined before an alias and again after it. -/
def redefined : Tree := Grammar.strict.tree "a: &x 1\nb: *x\nc: &x 2\n".toList

/-- The alias between the two definitions means the second one. -/
theorem alias_means_later_definition :
    ∃ before place after, redefined.root.places = before ++ place :: after ∧ place.node.kind = .alias ∧
      (lastDefinition? redefined (aliasName redefined place.node) before).map
        (fun d => (View.ofTree redefined).text d.value) = some "1" ∧
      (View.ofTree redefined).text place.node = "2" := by
  refine ⟨redefined.root.places.take 18, redefined.root.places.get ⟨18, by decide +kernel⟩,
    redefined.root.places.drop 19, ?_, by decide +kernel, by decide +kernel, by decide +kernel⟩
  rw [List.get_eq_getElem, List.getElem_cons_drop, List.take_append_drop]

end Anchors

end PipelineLint.Yaml
