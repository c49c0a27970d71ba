import PipelineLint.Yaml.View
import PipelineLint.Proofs.Yaml.Alike

/-! # The same values in another style

Two views show the same values in other styles if their nodes correspond so that mappings and sequences may differ in
being written as blocks or in brackets, while keys, scalars, anchors and nesting are the same. What corresponds is told
site by site, since at some sites the style matters after all: the text of a mapping or a sequence is what is written,
an orb in block style has a body, and an item of a list is a step in block style only.

What is read from a value depends on where in a configuration it stands: its site. A site tells what stands at the
sites below it, and whether the value itself is read as a text. Text is meant as it is written where a text is read and
a mapping or a sequence stands.
-/

namespace PipelineLint

section

open Yaml

/-- Where in a configuration a value stands. -/
inductive Site where
  /-- Nothing is read. -/
  | other
  | text
  | texts
  /-- A mapping of one text that counts. -/
  | only (name : String)
  /-- A mapping with values of one kind under any names. -/
  | each (below : Site)
  /-- A sequence with items of one kind. -/
  | list (below : Site)
  /-- The value of a merge key in a mapping, or an item of it. -/
  | merge (into : Site)
  | document | orb
  | parameter
  /-- A declaration of a parameter of known type. -/
  | declared (holdsSteps : Bool)
  | executor | image | machine | executorUse
  | command | job
  | step | run | conditional
  | builtIn
  /-- The values of a step that invokes a command. -/
  | call
  /-- A value given to a parameter. -/
  | value
  /-- An item of a list that is given to a parameter. -/
  | listItem
  | workflows | workflow
  /-- A job of a workflow. -/
  | use
  | useBody | requirement | matrix
  deriving DecidableEq, Repr, Inhabited

namespace Site

def documentField : String → Site
  | "version" | "description" => .text
  | "orbs" => .each .orb
  | "executors" => .each .executor
  | "commands" => .each .command
  | "jobs" => .each .job
  | "parameters" => .each .parameter
  | "workflows" => .workflows
  | _ => .other

def declaredField (holdsSteps : Bool) : String → Site
  | "type" | "description" => .text
  | "enum" => .list .text
  | "default" => if holdsSteps then .list .step else .text
  | _ => .other

def executorField : String → Site
  | "docker" => .list .image
  | "machine" => .machine
  | "macos" => .only "xcode"
  | "windows" => .only "image"
  | "resource_class" | "description" | "shell" | "working_directory" => .text
  | "environment" => .each .text
  | "parameters" => .each .parameter
  | _ => .other

def imageField : String → Site
  | "image" | "name" | "user" => .text
  | "entrypoint" | "command" => .texts
  | "environment" | "auth" | "aws_auth" => .each .text
  | _ => .other

def machineField : String → Site
  | "image" | "docker_layer_caching" => .text
  | _ => .other

def commandField : String → Site
  | "description" => .text
  | "steps" => .list .step
  | "parameters" => .each .parameter
  | _ => .other

def jobField : String → Site
  | "executor" => .executorUse
  | "type" | "parallelism" | "circleci_ip_ranges" => .text
  | "steps" => .list .step
  | "retention" => .only "caches"
  | key => executorField key

def stepField : String → Site
  | "run" | "deploy" => .run
  | "when" | "unless" => .conditional
  | "steps" => .text
  | "checkout" | "setup_remote_docker" | "save_cache" | "restore_cache" | "store_artifacts" | "store_test_results"
  | "persist_to_workspace" | "attach_workspace" | "add_ssh_keys" => .builtIn
  | _ => .call

def runField : String → Site
  | "environment" => .each .text
  | "name" | "command" | "shell" | "background" | "working_directory" | "no_output_timeout" | "when"
  | "max_auto_reruns" | "auto_rerun_delay" => .text
  | _ => .other

def builtInField : String → Site
  | "paths" | "keys" | "fingerprints" => .list .text
  | "path" | "docker_layer_caching" | "version" | "name" | "key" | "destination" | "root" | "at" => .text
  | _ => .other

/-- The fields of a job of a workflow. A key without a meaning of its own is a parameter. -/
def useField : String → Site
  | "" | "filters" | "branches" | "tags" => .other
  | "type" | "name" | "max_auto_reruns" | "serial-group" => .text
  | "requires" => .list .requirement
  | "context" => .texts
  | "matrix" => .matrix
  | "pre-steps" | "post-steps" => .list .step
  | _ => .value

def field : Site → String → Site
  | .only name, key => if key = name then .text else .other
  | .each below, _ => below
  | .merge into, key => into.field key
  | .document, key => documentField key
  | .parameter, key => if key = "type" then .text else .other
  | .declared holdsSteps, key => declaredField holdsSteps key
  | .executor, key => executorField key
  | .image, key => imageField key
  | .machine, key => machineField key
  | .executorUse, key => if key = "name" then .text else .value
  | .command, key => commandField key
  | .job, key => jobField key
  | .step, key => stepField key
  | .run, key => runField key
  | .conditional, key => if key = "steps" then .list .step else .other
  | .builtIn, key => builtInField key
  | .call, key => if key = "" then .other else .value
  | .value, _ => .value
  | .workflows, key => if key = "version" then .other else .workflow
  | .workflow, key => if key = "jobs" then .list .use else .other
  | .use, _ => .useBody
  | .useBody, key => useField key
  | .requirement, _ => .texts
  | .matrix, key => if key = "parameters" then .each .value else .other
  | _, _ => .other

def under (s : Site) (key : String) : Site := if key = mergeKey then .merge s else s.field key

def item : Site → Site
  | .texts => .text
  | .list below => below
  | .merge into => .merge into
  | .value => .listItem
  | _ => .other

/-- What is of this kind is read as the text it is written as. -/
def readsText : Site → Kind → Bool
  | .text, _ => true
  | .texts, kind => !kind.isSequence
  | .machine, kind | .executorUse, kind | .step, kind | .run, kind | .use, kind | .requirement, kind => !kind.isMapping
  | _, _ => false

@[simp] theorem under_of_ne (s : Site) {key : String} (h : key ≠ mergeKey) : s.under key = s.field key := if_neg h

end Site

end

open List (Forall₂)
open Yaml Yaml.View

namespace Yaml.Kind

def unstyled : Kind → Kind
  | .blockNode => .flowNode
  | .blockMapping => .flowMapping
  | .blockSequence => .flowSequence
  | kind => kind

/-- The kinds of what is no scalar and leads on to none: their text is what is written. -/
def isVerbatim (kind : Kind) : Bool := !(kind.isHolder || kind.isScalar || kind = .alias)

private theorem isMapping_unstyled (kind : Kind) : kind.unstyled.isMapping = kind.isMapping := by cases kind <;> rfl

private theorem isSequence_unstyled (kind : Kind) : kind.unstyled.isSequence = kind.isSequence := by cases kind <;> rfl

private theorem isScalar_unstyled (kind : Kind) : kind.unstyled.isScalar = kind.isScalar := by cases kind <;> rfl

private theorem isHolder_unstyled (kind : Kind) : kind.unstyled.isHolder = kind.isHolder := by cases kind <;> rfl

theorem unstyled_eq_alias_iff {kind : Kind} : kind.unstyled = .alias ↔ kind = .alias := by
  cases kind <;> simp [unstyled]

end Yaml.Kind

variable {v w : View} {N : Node → Node → Prop} {R : Site → Node → Node → Prop}

/-- Two values at a site show the same, perhaps in other styles, where what they hold corresponds by `R`, and the bodies
of local orbs by `N`. -/
structure Shows (v w : View) (N : Node → Node → Prop) (R : Site → Node → Node → Prop) (s : Site) (n m : Node) :
    Prop where
  kind : n.kind.unstyled = m.kind.unstyled
  inner : n.kind.isHolder → Option.Rel (R s) (inner? n) (inner? m)
  aliased : n.kind.isHolder → Option.Rel (R s) (n.child? .alias) (m.child? .alias)
  target : n.kind = .alias → v.nameOfAlias n = w.nameOfAlias m ∧
    Option.Rel (R s) (v.values.get? (v.nameOfAlias n)) (w.values.get? (w.nameOfAlias m))
  scalar : n.kind.isScalar → n.kind = m.kind ∧ v.characters n = w.characters m ∧
    n.namedChildren.head?.map Node.kind = m.namedChildren.head?.map Node.kind
  pairs : n.kind.isMapping → Forall₂
    (fun p q => Option.Rel (R .text) p.key q.key ∧ Option.Rel (R (s.under (v.keyText p))) p.rawValue q.rawValue)
    (n.children.filterMap v.pair?) (m.children.filterMap w.pair?)
  items : n.kind.isSequence → Forall₂ (fun i j => Option.Rel (R s.item) i.rawValue j.rawValue)
    (n.children.filterMap v.item?) (m.children.filterMap w.item?)
  text : n.kind.isVerbatim → s.readsText n.kind → v.characters n = w.characters m
  /-- An orb keeps its style: in flow style it is read as a text, and in block style as the text of a document. -/
  orb : s = .orb → n.kind = m.kind ∧ (n.kind = .flowNode → R .text n m) ∧
    (n.kind = .blockNode → (v.mapping? n).isSome → N n m)
  /-- A step that is no mapping keeps its style. -/
  step : s = .step → (v.mapping? n).isNone → n.kind = m.kind
  /-- A mapping in a list keeps its style, and is a step in block style. -/
  listItem : s = .listItem → (v.mapping? n).isSome → n.kind = m.kind ∧ (n.kind = .blockNode → R .step n m)
  /-- What the default of a parameter is depends on its type. -/
  parameter : s = .parameter → R (.declared (v.textOrEmpty (v.field? n "type") = "steps")) n m

/-- The nodes of two views that correspond show the same, perhaps in other styles; and mappings are told apart in both
views or in none. -/
structure Restyled (v w : View) (N : Node → Node → Prop) (R : Site → Node → Node → Prop) : Prop where
  shows : ∀ {s n m}, R s n m → Shows v w N R s n m
  id : ∀ {s s' n m n' m'}, R s n m → R s' n' m' → n.kind.isMapping → n'.kind.isMapping → (n.id = n'.id ↔ m.id = m'.id)

/-- Pairs that correspond, with values at the sites of their keys. -/
structure PairRestyled (v : View) (R : Site → Node → Node → Prop) (field : String → Site) (p q : Pair) : Prop where
  key : Option.Rel (R .text) p.key q.key
  rawValue : Option.Rel (R (field (v.keyText p))) p.rawValue q.rawValue
  value : Option.Rel (R (field (v.keyText p))) p.value q.value

structure ItemRestyled (R : Site → Node → Node → Prop) (s : Site) (i j : Item) : Prop where
  rawValue : Option.Rel (R s) i.rawValue j.rawValue
  value : Option.Rel (R s) i.value j.value

theorem Yaml.View.content?_self {n a : Node} (h : v.content? n = some a) :
    ¬ a.kind.isHolder ∧ a.kind ≠ .alias ∧ v.content? a = some a := by
  have hkind : ¬ a.kind.isHolder ∧ a.kind ≠ .alias := by
    rw [content?] at h
    generalize maxAliasSteps + 1 = steps at h
    induction steps generalizing n with
    | zero => cases h
    | succ steps ih =>
      rw [contentWithin] at h
      split at h
      · obtain ⟨_, -, h⟩ := Option.bind_eq_some_iff.mp h
        exact ih h
      · obtain ⟨_, -, h⟩ := Option.bind_eq_some_iff.mp h
        exact ih h
      · obtain ⟨_, -, h⟩ := Option.bind_eq_some_iff.mp h
        exact ih h
      · obtain rfl := Option.some.inj h
        rename_i hblock hflow halias
        refine ⟨fun hholder => ?_, halias⟩
        unfold Kind.isHolder at hholder
        split at hholder <;> simp_all
  refine ⟨hkind.1, hkind.2, ?_⟩
  rw [content?, contentWithin]
  split <;> simp_all [Kind.isHolder]

theorem Yaml.View.characters_of_content? {n a : Node} (h : v.content? n = some a) :
    v.characters n = v.characters a := by
  rw [characters, characters, h, (content?_self h).2.2]

namespace Restyled

variable {s : Site} {n m a b : Node} {p q : Pair} {i j : Item} (h : Restyled v w N R)
include h

theorem isMapping (hnm : R s n m) : n.kind.isMapping = m.kind.isMapping := by
  rw [← Kind.isMapping_unstyled, (h.shows hnm).kind, Kind.isMapping_unstyled]

theorem isSequence (hnm : R s n m) : n.kind.isSequence = m.kind.isSequence := by
  rw [← Kind.isSequence_unstyled, (h.shows hnm).kind, Kind.isSequence_unstyled]

theorem isScalar (hnm : R s n m) : n.kind.isScalar = m.kind.isScalar := by
  rw [← Kind.isScalar_unstyled, (h.shows hnm).kind, Kind.isScalar_unstyled]

theorem isHolder (hnm : R s n m) : n.kind.isHolder = m.kind.isHolder := by
  rw [← Kind.isHolder_unstyled, (h.shows hnm).kind, Kind.isHolder_unstyled]

theorem isAlias_iff (hnm : R s n m) : n.kind = .alias ↔ m.kind = .alias := by
  rw [← Kind.unstyled_eq_alias_iff, (h.shows hnm).kind, Kind.unstyled_eq_alias_iff]

theorem aliasOf? (hnm : R s n m) : Option.Rel (R s) (aliasOf? n) (aliasOf? m) := by
  by_cases halias : n.kind = .alias
  · rw [View.aliasOf?, View.aliasOf?, halias, (h.isAlias_iff hnm).mp halias]
    exact .some hnm
  by_cases hholder : n.kind.isHolder
  · have hrel := (h.shows hnm).aliased hholder
    have hholder' := h.isHolder hnm ▸ hholder
    have hof {x : Node} (hx : x.kind.isHolder) : View.aliasOf? x = x.child? .alias := by
      unfold Kind.isHolder at hx
      unfold View.aliasOf?
      split at hx <;> simp_all
    rwa [hof hholder, hof hholder']
  · have hholder' := h.isHolder hnm ▸ hholder
    have halias' := mt (h.isAlias_iff hnm).mpr halias
    have hof {x : Node} (hx : ¬ x.kind.isHolder) (hx' : x.kind ≠ .alias) : View.aliasOf? x = none := by
      unfold View.aliasOf?
      split <;> simp_all [Kind.isHolder]
    rw [hof hholder halias, hof hholder' halias']
    exact .none

theorem nameOfAlias (hnm : R s n m) (hn : View.aliasOf? n = some a) (hm : View.aliasOf? m = some b) :
    v.nameOfAlias a = w.nameOfAlias b := by
  have hab := h.aliasOf? hnm
  rw [hn, hm] at hab
  cases hab with
  | some hab => exact ((h.shows hab).target (reaches_aliasOf? (v := v) hn).2).1

private theorem contentWithin (steps : Nat) (hnm : R s n m) :
    Option.Rel (R s) (v.contentWithin steps n) (w.contentWithin steps m) := by
  induction steps generalizing n m with
  | zero => exact .none
  | succ steps ih =>
    have holder {x : Node} {u : View} (hx : x.kind.isHolder) :
        u.contentWithin (steps + 1) x = (View.inner? x).bind (u.contentWithin steps) := by
      unfold Kind.isHolder at hx
      rw [View.contentWithin]
      split at hx <;> simp_all
    by_cases hholder : n.kind.isHolder
    · rw [holder hholder, holder (h.isHolder hnm ▸ hholder)]
      exact rel_bind ((h.shows hnm).inner hholder) fun _ _ => ih
    by_cases halias : n.kind = .alias
    · rw [View.contentWithin, View.contentWithin, halias, (h.isAlias_iff hnm).mp halias]
      exact rel_bind ((h.shows hnm).target halias).2 fun _ _ => ih
    · have self {x : Node} {u : View} (hx : ¬ x.kind.isHolder) (hx' : x.kind ≠ .alias) :
          u.contentWithin (steps + 1) x = some x := by
        rw [View.contentWithin]
        split <;> simp_all [Kind.isHolder]
      rw [self hholder halias, self (h.isHolder hnm ▸ hholder) (mt (h.isAlias_iff hnm).mpr halias)]
      exact .some hnm

private theorem resolveWithin (steps : Nat) (hnm : R s n m) :
    R s (v.resolveWithin steps n) (w.resolveWithin steps m) := by
  induction steps generalizing n m with
  | zero => exact hnm
  | succ steps ih =>
    rw [View.resolveWithin, View.resolveWithin]
    obtain ⟨hn, hm⟩ | ⟨a, b, hn, hm, hab⟩ := rel_cases (h.aliasOf? hnm)
    · simpa only [hn, hm] using hnm
    · have htarget := ((h.shows hab).target (reaches_aliasOf? (v := v) hn).2).2
      obtain ⟨ht, ht'⟩ | ⟨target, target', ht, ht', hrel⟩ := rel_cases htarget
      · simpa only [hn, hm, ht, ht'] using hnm
      · simpa only [hn, hm, ht, ht'] using ih hrel

private theorem resolve (hnm : R s n m) : R s (v.resolve n) (w.resolve m) := h.resolveWithin maxAliasSteps hnm

theorem rel_resolve {x y : Option Node} (hxy : Option.Rel (R s) x y) :
    Option.Rel (R s) (x.map v.resolve) (y.map w.resolve) := by
  cases hxy with
  | none => exact .none
  | some hab => exact .some (h.resolve hab)

theorem content? (hnm : R s n m) : Option.Rel (R s) (v.content? n) (w.content? m) :=
  h.contentWithin (maxAliasSteps + 1) hnm

theorem mapping? (hnm : R s n m) : Option.Rel (R s) (v.mapping? n) (w.mapping? m) := by
  rw [View.mapping?, View.mapping?]
  obtain ⟨hn, hm⟩ | ⟨a, b, hn, hm, hab⟩ := rel_cases (h.content? hnm)
  · rw [hn, hm]
    exact .none
  · rw [hn, hm]
    exact rel_filter (.some hab) fun _ _ hab => h.isMapping hab

theorem sequence? (hnm : R s n m) : Option.Rel (R s) (v.sequence? n) (w.sequence? m) :=
  rel_filter (h.content? hnm) fun _ _ hab => h.isSequence hab

theorem scalar? (hnm : R s n m) : Option.Rel (R s) (v.scalar? n) (w.scalar? m) :=
  rel_filter (h.content? hnm) fun _ _ hab => h.isScalar hab

/-- The characters of values are the same where what is no scalar is read as a text. -/
theorem characters_of_readsText (hnm : R s n m) (hs : ∀ c, v.content? n = some c → s.readsText c.kind) :
    v.characters n = w.characters m := by
  obtain ⟨hn, hm⟩ | ⟨a, b, hn, hm, hab⟩ := rel_cases (h.content? hnm)
  · rw [View.characters, View.characters, hn, hm]
  rw [characters_of_content? hn, characters_of_content? hm]
  by_cases hscalar : a.kind.isScalar
  · exact ((h.shows hab).scalar hscalar).2.1
  · obtain ⟨hholder, halias, -⟩ := content?_self hn
    exact (h.shows hab).text (by simp [Kind.isVerbatim, hscalar, hholder, halias]) (hs a hn)

theorem characters (hnm : R .text n m) : v.characters n = w.characters m :=
  h.characters_of_readsText hnm fun _ _ => rfl

theorem text (hnm : R .text n m) : v.text n = w.text m := by rw [View.text, View.text, h.characters hnm]

/-- A value that is no mapping is a name at some sites. -/
theorem text_of_mapping?_eq_none (hnm : R s n m) (hn : v.mapping? n = none)
    (hs : ∀ kind : Kind, ¬ kind.isMapping → s.readsText kind) : v.text n = w.text m := by
  rw [View.text, View.text, h.characters_of_readsText hnm fun c hc => hs _ fun hmapping => ?_]
  rw [View.mapping?, hc, Option.filter_some, if_pos hmapping] at hn
  cases hn

theorem textOrEmpty {x y : Option Node} (hxy : Option.Rel (R .text) x y) : v.textOrEmpty x = w.textOrEmpty y := by
  rw [View.textOrEmpty, View.textOrEmpty, map_eq_of_rel hxy fun _ _ => h.text]

theorem keyText {field : String → Site} (hpq : PairRestyled v R field p q) : v.keyText p = w.keyText q :=
  h.textOrEmpty hpq.key

theorem directPairs (hnm : R s n m) : Forall₂ (PairRestyled v R s.under) (v.directPairs n) (w.directPairs m) := by
  have hpair {u : View} {p : Pair} {ns : List Node} (hp : p ∈ ns.filterMap u.pair?) :
      p.value = p.rawValue.map u.resolve := by
    obtain ⟨c, -, hc⟩ := List.mem_filterMap.mp hp
    rw [View.pair?] at hc
    split at hc
    · obtain rfl := Option.some.inj hc
      rfl
    · cases hc
  rw [View.directPairs, View.directPairs]
  obtain ⟨hn, hm⟩ | ⟨a, b, hn, hm, hab⟩ := rel_cases (h.mapping? hnm)
  · simp [hn, hm]
  · simp only [hn, hm]
    have hpairs := (h.shows hab).pairs (Option.filter_eq_some_iff.mp hn).2
    refine (List.forall₂_iff_get.mpr ⟨hpairs.length_eq, fun k hk hk' => ?_⟩)
    obtain ⟨hkey, hraw⟩ := hpairs.get hk hk'
    refine ⟨hkey, hraw, ?_⟩
    rw [hpair (List.get_mem _ _), hpair (List.get_mem _ _)]
    exact h.rel_resolve hraw

theorem items (hnm : R s n m) : Forall₂ (ItemRestyled R s.item) (v.items n) (w.items m) := by
  have hitem {u : View} {i : Item} {ns : List Node} (hi : i ∈ ns.filterMap u.item?) :
      i.value = i.rawValue.map u.resolve := by
    obtain ⟨c, -, hc⟩ := List.mem_filterMap.mp hi
    rw [View.item?] at hc
    split at hc <;> cases hc <;> rfl
  rw [View.items, View.items]
  obtain ⟨hn, hm⟩ | ⟨a, b, hn, hm, hab⟩ := rel_cases (h.sequence? hnm)
  · simp [hn, hm]
  · simp only [hn, hm]
    have hitems := (h.shows hab).items (Option.filter_eq_some_iff.mp hn).2
    refine (List.forall₂_iff_get.mpr ⟨hitems.length_eq, fun k hk hk' => ?_⟩)
    have hraw := hitems.get hk hk'
    refine ⟨hraw, ?_⟩
    rw [hitem (List.get_mem _ _), hitem (List.get_mem _ _)]
    exact h.rel_resolve hraw

theorem itemMapping? (hij : ItemRestyled R s i j) :
    Option.Rel (R s) (i.value.bind v.mapping?) (j.value.bind w.mapping?) :=
  rel_bind hij.value fun _ _ => h.mapping?

private theorem mergeSources (hnm : R (.merge s) n m) :
    Forall₂ (R (.merge s)) (v.mergeSources n) (w.mergeSources m) := by
  rw [View.mergeSources, View.mergeSources]
  obtain ⟨hn, hm⟩ | ⟨a, b, hn, hm, hab⟩ := rel_cases (h.mapping? hnm)
  · have hitems : Forall₂ (ItemRestyled R (.merge s)) (v.items n) (w.items m) := h.items hnm
    simpa only [hn, hm] using List.rel_filterMap (fun _ _ hij => h.itemMapping? hij) hitems
  · simpa only [hn, hm] using .cons hab .nil

/-- What a mapping merges stands at a site with the same fields. -/
theorem merged (hnm : R s n m) : Forall₂ (R (.merge s)) (v.merged n) (w.merged m) := by
  rw [View.merged, View.merged]
  have hmerges : Forall₂ (fun p q => PairRestyled v R s.under p q ∧ v.keyText p = mergeKey)
      ((v.directPairs n).filter fun p => v.keyText p == mergeKey)
      ((w.directPairs m).filter fun p => w.keyText p == mergeKey) :=
    forall₂_filter_of (h.directPairs hnm) (fun p q hpq => by rw [h.keyText hpq])
      fun p q hpq hkey => ⟨hpq, beq_iff_eq.mp hkey⟩
  refine List.rel_flatMap hmerges ?_
  rintro p q ⟨hpq, hkey⟩
  have hvalue := hpq.value
  rw [hkey, Site.under, if_pos rfl] at hvalue
  obtain ⟨hp, hq⟩ | ⟨x, y, hp, hq, hxy⟩ := rel_cases hvalue
  · simp [hp, hq]
  · simpa [hp, hq] using h.mergeSources hxy

end Restyled

/-- The states of walks in two views correspond. -/
structure VisitRestyled (v : View) (R : Site → Node → Node → Prop) (field : String → Site) (s t : Visit) : Prop where
  keys : s.keys = t.keys
  entered : ∀ {site n m}, R site n m → n.kind.isMapping → (n.id ∈ s.entered ↔ m.id ∈ t.entered)
  pairs : Forall₂ (PairRestyled v R field) s.pairs t.pairs

namespace Restyled

variable {s : Site} {n m : Node} (h : Restyled v w N R)
include h

/-- The pairs that a mapping adds to a walk are no merges, so their values stand at the sites of its fields. -/
theorem own (isRoot : Bool) (keys : List String) (hnm : R s n m) :
    Forall₂ (PairRestyled v R s.field) (Visited.own v isRoot keys n) (Visited.own w isRoot keys m) := by
  refine forall₂_filter_of (h.directPairs hnm) (fun p q hpq => by rw [h.keyText hpq]) fun p q hpq hkey => ?_
  have hne : v.keyText p ≠ mergeKey := by
    rintro heq
    simp [heq] at hkey
  exact ⟨hpq.key, Site.under_of_ne s hne ▸ hpq.rawValue, Site.under_of_ne s hne ▸ hpq.value⟩

private theorem visit (fuel : Nat) (isRoot : Bool) {field : String → Site} {x y : Visit} (hs : s.field = field)
    (hnm : R s n m) (hxy : VisitRestyled v R field x y) :
    VisitRestyled v R field (v.visit fuel isRoot n x) (w.visit fuel isRoot m y) := by
  induction fuel generalizing s isRoot n m x y with
  | zero => exact hxy
  | succ fuel ih =>
    obtain ⟨hn, hm⟩ | ⟨a, b, hn, hm, hab⟩ := rel_cases (h.mapping? hnm)
    · simpa only [View.visit, hn, hm] using hxy
    have hmapping : a.kind.isMapping := (Option.filter_eq_some_iff.mp hn).2
    have hold : x.entered.contains a.id = y.entered.contains b.id := by
      rw [Bool.eq_iff_iff, List.contains_iff_mem, List.contains_iff_mem]
      exact hxy.entered hab hmapping
    rw [View.visit, View.visit]
    simp only [hn, hm, hold]
    split
    · exact hxy
    have hown : Forall₂ (PairRestyled v R field) (Visited.own v isRoot x.keys a) (Visited.own w isRoot y.keys b) := by
      rw [← hxy.keys, ← hs]
      exact h.own isRoot x.keys hab
    refine List.rel_foldl (P := VisitRestyled v R field) (R := R (.merge s))
      (fun _ _ hxy _ _ hsource => ih false (s := .merge s) hs hsource hxy) ?_ (h.merged hab)
    refine ⟨?_, fun hcd hc => ?_, List.rel_append hxy.pairs hown⟩
    · exact congrArg₂ (· ++ ·) hxy.keys (map_eq_of_forall₂ hown fun _ _ => h.keyText)
    · simp only [List.mem_cons, h.id hcd hab hc hmapping, hxy.entered hcd hc]

theorem pairs (hnm : R s n m) : Forall₂ (PairRestyled v R s.field) (v.pairs n) (w.pairs m) := by
  rw [pairs_eq_visit (Nat.le_max_left _ (m.size + w.size + 1)),
    pairs_eq_visit (Nat.le_max_right (n.size + v.size + 1) _)]
  exact (h.visit _ true rfl hnm ⟨rfl, fun _ _ => by simp, .nil⟩).pairs

/-- The first pairs with a key correspond. -/
theorem find? (hnm : R s n m) (key : String) : Option.Rel (fun p q => PairRestyled v R s.field p q ∧ v.keyText p = key)
    (v.find? n key) (w.find? m key) :=
  rel_find?_of (h.pairs hnm) (fun p q hpq => by rw [h.keyText hpq]) fun p q hpq hkey => ⟨hpq, beq_iff_eq.mp hkey⟩

theorem field? (hnm : R s n m) (key : String) : Option.Rel (R (s.field key)) (v.field? n key) (w.field? m key) :=
  rel_bind (h.find? hnm key) fun _ _ ⟨hpq, hkey⟩ => hkey ▸ hpq.value

/-- The texts of the items of a sequence of texts are the same. -/
theorem texts (hnm : R s n m) (hs : s.item = .text) : (v.texts n).map (·.text) = (w.texts m).map (·.text) := by
  rw [View.texts, View.texts, List.map_map, List.map_map]
  refine map_eq_of_forall₂ (h.items hnm) fun i j hij => ?_
  have hvalue := hs ▸ hij.value
  obtain ⟨hi, hj⟩ | ⟨a, b, hi, hj, hab⟩ := rel_cases hvalue
  · simp only [Function.comp_apply, hi, hj]
  · simp only [Function.comp_apply, hi, hj, h.text hab]

/-- The text of a value that is no sequence of texts is the same. -/
theorem text_of_sequence?_eq_none (hnm : R .texts n m) (hn : v.sequence? n = none) : v.text n = w.text m := by
  rw [View.text, View.text, h.characters_of_readsText hnm fun c hc => ?_]
  rw [View.sequence?, hc] at hn
  simpa [Site.readsText] using hn

end Restyled

variable {N' : Node → Node → Prop} {R' : Site → Node → Node → Prop} {s : Site} {n m : Node}

theorem Shows.mono (hN : ∀ n m, N n m → N' n m) (hR : ∀ s n m, R s n m → R' s n m) (h : Shows v w N R s n m) :
    Shows v w N' R' s n m where
  kind := h.kind
  inner hholder := rel_mono (hR s) (h.inner hholder)
  aliased hholder := rel_mono (hR s) (h.aliased hholder)
  target halias := ⟨(h.target halias).1, rel_mono (hR s) (h.target halias).2⟩
  scalar := h.scalar
  pairs hmapping := (h.pairs hmapping).imp fun _ _ hpq => ⟨rel_mono (hR _) hpq.1, rel_mono (hR _) hpq.2⟩
  items hsequence := (h.items hsequence).imp fun _ _ => rel_mono (hR _)
  text := h.text
  orb hs := ⟨(h.orb hs).1, fun hflow => hR _ _ _ ((h.orb hs).2.1 hflow),
    fun hblock hmapping => hN _ _ ((h.orb hs).2.2 hblock hmapping)⟩
  step := h.step
  listItem hs hmapping := ⟨(h.listItem hs hmapping).1, fun hblock => hR _ _ _ ((h.listItem hs hmapping).2 hblock)⟩
  parameter hs := hR _ _ _ (h.parameter hs)

set_option synthInstance.maxSize 400 in
instance decidableShows [DecidableRel N] [∀ s n m, Decidable (R s n m)] : Decidable (Shows v w N R s n m) :=
  decidable_of_iff
    (n.kind.unstyled = m.kind.unstyled ∧ (n.kind.isHolder → Option.Rel (R s) (inner? n) (inner? m)) ∧
      (n.kind.isHolder → Option.Rel (R s) (n.child? .alias) (m.child? .alias)) ∧
      (n.kind = .alias → v.nameOfAlias n = w.nameOfAlias m ∧
        Option.Rel (R s) (v.values.get? (v.nameOfAlias n)) (w.values.get? (w.nameOfAlias m))) ∧
      (n.kind.isScalar → n.kind = m.kind ∧ v.characters n = w.characters m ∧
        n.namedChildren.head?.map Node.kind = m.namedChildren.head?.map Node.kind) ∧
      (n.kind.isMapping → Forall₂ (fun p q => Option.Rel (R .text) p.key q.key ∧
        Option.Rel (R (s.under (v.keyText p))) p.rawValue q.rawValue)
        (n.children.filterMap v.pair?) (m.children.filterMap w.pair?)) ∧
      (n.kind.isSequence → Forall₂ (fun i j => Option.Rel (R s.item) i.rawValue j.rawValue)
        (n.children.filterMap v.item?) (m.children.filterMap w.item?)) ∧
      (n.kind.isVerbatim → s.readsText n.kind → v.characters n = w.characters m) ∧
      (s = .orb → n.kind = m.kind ∧ (n.kind = .flowNode → R .text n m) ∧
        (n.kind = .blockNode → (v.mapping? n).isSome → N n m)) ∧
      (s = .step → (v.mapping? n).isNone → n.kind = m.kind) ∧
      (s = .listItem → (v.mapping? n).isSome → n.kind = m.kind ∧ (n.kind = .blockNode → R .step n m)) ∧
      (s = .parameter → R (.declared (v.textOrEmpty (v.field? n "type") = "steps")) n m))
    ⟨fun ⟨kind, inner, aliased, target, scalar, pairs, items, text, orb, step, listItem, parameter⟩ =>
        ⟨kind, inner, aliased, target, scalar, pairs, items, text, orb, step, listItem, parameter⟩,
      fun ⟨kind, inner, aliased, target, scalar, pairs, items, text, orb, step, listItem, parameter⟩ =>
        ⟨kind, inner, aliased, target, scalar, pairs, items, text, orb, step, listItem, parameter⟩⟩

/-- The numbers of the mappings of a tree in document order. -/
def mappingIds (v : View) : List Nat := (v.tree.root.preorder.filter (·.kind.isMapping)).map (·.id)

/-- Two mappings have the same place among the mappings of their trees. -/
def SamePlace (v w : View) (n m : Node) : Prop :=
  n.id ∈ mappingIds v ∧ m.id ∈ mappingIds w ∧ (mappingIds v).idxOf n.id = (mappingIds w).idxOf m.id

instance decidableSamePlace : Decidable (SamePlace v w n m) := inferInstanceAs (Decidable (_ ∧ _ ∧ _))

/-- Two values at a site show the same, perhaps in other styles, within a number of steps down or over an alias; and
mappings in them follow each other in the same order. -/
def RestyledWithin (v w : View) (N : Node → Node → Prop) : Nat → Site → Node → Node → Prop
  | 0, _, _, _ => False
  | steps + 1, s, n, m => Shows v w N (RestyledWithin v w N steps) s n m ∧ (n.kind.isMapping → SamePlace v w n m)

instance decidableRestyledWithin [DecidableRel N] : (steps : Nat) → (s : Site) → (n m : Node) →
    Decidable (RestyledWithin v w N steps s n m)
  | 0, _, _, _ => inferInstanceAs (Decidable False)
  | steps + 1, s, n, m =>
    have (s : Site) (n m : Node) := decidableRestyledWithin steps s n m
    inferInstanceAs (Decidable (Shows v w N (RestyledWithin v w N steps) s n m ∧ (n.kind.isMapping → SamePlace v w n m)))

/-- Values that show the same within some number of steps show the same. -/
theorem restyled_of_within (hN : ∀ n m, N n m → N' n m) :
    Restyled v w N' fun s n m => ∃ steps, RestyledWithin v w N steps s n m where
  shows := by
    rintro s n m ⟨steps, h⟩
    cases steps with
    | zero => exact h.elim
    | succ steps => exact h.1.mono hN fun _ _ _ h => ⟨steps, h⟩
  id := by
    rintro s s' n m n' m' ⟨steps, h⟩ ⟨steps', h'⟩ hn hn'
    cases steps with
    | zero => exact h.elim
    | succ steps =>
    cases steps' with
    | zero => exact h'.elim
    | succ steps' =>
      obtain ⟨hmem, hmem', hsame⟩ := h.2 hn
      obtain ⟨hmem₁, hmem₁', hsame₁⟩ := h'.2 hn'
      rw [← List.idxOf_inj hmem, ← List.idxOf_inj hmem', hsame, hsame₁]

end PipelineLint
