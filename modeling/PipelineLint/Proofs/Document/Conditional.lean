import PipelineLint.Concrete.Grammar.Stream
import PipelineLint.Proofs.Document.Alike
import PipelineLint.Proofs.Document.Endless
import PipelineLint.Proofs.Yaml.Edges

/-! # Conditional blocks

A conditional block in a list of steps is read as if the items of its lists stood in its place. `Flattens` is a list
with all blocks replaced in this way, however deep they stand in each other. A list is read as the flat one is: the same
steps and the same findings, both in order. There is a flat list wherever no value contains itself through an alias.
-/

namespace PipelineLint

open List (Forall₂)
open Yaml Yaml.View

namespace Reads

variable {α β γ : Type} {f : α → Reads (List β)} {xs ys : List α} {x : α} {all : List β} {ds : List Diagnostic}

theorem each_eq_ok_iff {g : α → Reads γ} {zs : List γ} : each g xs = Except.ok (zs, ds) ↔
    ∃ parts, Forall₂ (fun x part => g x = Except.ok part) xs parts ∧ zs = parts.map Prod.fst ∧
      ds = (parts.map Prod.snd).flatten := by
  induction xs generalizing zs ds with
  | nil =>
    rw [each, pure_eq_ok_iff]
    constructor
    · rintro ⟨rfl, rfl⟩
      exact ⟨[], .nil, rfl, rfl⟩
    · rintro ⟨parts, hparts, rfl, rfl⟩
      cases hparts
      exact ⟨rfl, rfl⟩
  | cons x xs ih =>
    simp only [each_cons_eq_ok_iff, ih]
    constructor
    · rintro ⟨z, before, _, _, hx, ⟨parts, hparts, rfl, rfl⟩, rfl, rfl⟩
      exact ⟨(z, before) :: parts, .cons hx hparts, by simp, by simp⟩
    · rintro ⟨_, hall, rfl, rfl⟩
      obtain ⟨⟨z, before⟩, parts, hx, hparts, rfl⟩ := List.forall₂_cons_left_iff.mp hall
      exact ⟨z, before, _, _, hx, ⟨parts, hparts, rfl, rfl⟩, rfl, rfl⟩

/-- Two readings that end with the same results are the same. -/
theorem eq_of_ok_iff {x y : Reads α} (h : ∀ a ds, x = Except.ok (a, ds) ↔ y = Except.ok (a, ds)) : x = y :=
  eq_of_below (fun result => (h result.1 result.2).mp) fun result => (h result.1 result.2).mpr

/-- Reads a list from each of some things and puts the lists together. -/
def gather (f : α → Reads (List β)) (xs : List α) : Reads (List β) := do
  let parts ← each f xs
  pure parts.flatten

theorem gather_eq_ok_iff : gather f xs = Except.ok (all, ds) ↔
    ∃ parts, Forall₂ (fun x part => f x = Except.ok part) xs parts ∧ all = (parts.map Prod.fst).flatten ∧
      ds = (parts.map Prod.snd).flatten := by
  simp only [gather, bind_eq_ok_iff, pure_eq_ok_iff, each_eq_ok_iff]
  constructor
  · rintro ⟨_, _, _, ⟨parts, hparts, rfl, rfl⟩, ⟨rfl, rfl⟩, rfl⟩
    exact ⟨parts, hparts, rfl, by simp⟩
  · rintro ⟨parts, hparts, rfl, rfl⟩
    exact ⟨_, _, [], ⟨parts, hparts, rfl, rfl⟩, ⟨rfl, rfl⟩, by simp⟩

theorem gather_congr {g : α → Reads (List β)} (h : ∀ x ∈ xs, f x = g x) : gather f xs = gather g xs := by
  rw [gather, gather, each_congr (r := fun a b => a = b ∧ a ∈ xs) (List.forall₂_same.mpr fun x hx => ⟨rfl, hx⟩)]
  rintro a b ⟨rfl, ha⟩
  exact h a ha

theorem gather_nil_eq_ok_iff : gather f [] = Except.ok (all, ds) ↔ all = [] ∧ ds = [] := by
  simp [gather_eq_ok_iff]

theorem gather_cons_eq_ok_iff : gather f (x :: xs) = Except.ok (all, ds) ↔ ∃ a before b after,
    f x = Except.ok (a, before) ∧ gather f xs = Except.ok (b, after) ∧ all = a ++ b ∧ ds = before ++ after := by
  simp only [gather_eq_ok_iff]
  constructor
  · rintro ⟨_, hall, rfl, rfl⟩
    obtain ⟨⟨a, before⟩, parts, hx, hparts, rfl⟩ := List.forall₂_cons_left_iff.mp hall
    exact ⟨a, before, _, _, hx, ⟨parts, hparts, rfl, rfl⟩, by simp, by simp⟩
  · rintro ⟨a, before, _, _, hx, ⟨parts, hparts, rfl, rfl⟩, rfl, rfl⟩
    exact ⟨(a, before) :: parts, .cons hx hparts, by simp, by simp⟩

theorem gather_append_eq_ok_iff : gather f (xs ++ ys) = Except.ok (all, ds) ↔ ∃ a before b after,
    gather f xs = Except.ok (a, before) ∧ gather f ys = Except.ok (b, after) ∧ all = a ++ b ∧
      ds = before ++ after := by
  induction xs generalizing all ds with
  | nil =>
    simp only [List.nil_append, gather_nil_eq_ok_iff]
    constructor
    · intro h
      exact ⟨[], [], all, ds, ⟨rfl, rfl⟩, h, rfl, rfl⟩
    · rintro ⟨_, _, b, after, ⟨rfl, rfl⟩, h, rfl, rfl⟩
      exact h
  | cons x xs ih =>
    simp only [List.cons_append, gather_cons_eq_ok_iff, ih]
    constructor
    · rintro ⟨a, before, _, _, hx, ⟨b, between, c, after, hxs, hys, rfl, rfl⟩, rfl, rfl⟩
      exact ⟨_, _, c, after, ⟨a, before, b, between, hx, hxs, rfl, rfl⟩, hys, by simp, by simp⟩
    · rintro ⟨_, _, c, after, ⟨a, before, b, between, hx, hxs, rfl, rfl⟩, hys, rfl, rfl⟩
      exact ⟨a, before, _, _, hx, ⟨b, between, c, after, hxs, hys, rfl, rfl⟩, by simp, by simp⟩

/-- Lists of things may be put together before they are read. -/
theorem gather_flatMap (f : γ → Reads (List β)) (g : α → List γ) (xs : List α) :
    gather f (xs.flatMap g) = gather (fun x => gather f (g x)) xs := by
  induction xs with
  | nil => rfl
  | cons x xs ih =>
    refine eq_of_ok_iff fun all ds => ?_
    rw [List.flatMap_cons, gather_append_eq_ok_iff, gather_cons_eq_ok_iff, ih]

/-- Things of which nothing is read may be left out. -/
theorem gather_filterMap (f : γ → Reads (List β)) (g : α → Option γ) (xs : List α) :
    gather f (xs.filterMap g) = gather (fun x => (g x).elim (pure []) f) xs := by
  induction xs with
  | nil => rfl
  | cons x xs ih =>
    refine eq_of_ok_iff fun all ds => ?_
    rw [gather_cons_eq_ok_iff, ← ih]
    cases hx : g x with
    | some z => rw [List.filterMap_cons_some hx, gather_cons_eq_ok_iff, Option.elim_some]
    | none =>
      rw [List.filterMap_cons_none hx]
      simp [pure_eq_ok_iff]

end Reads

namespace Read

open Reads

variable {v : View} {n : Node} {i : Item} {items flat inner : List Item}

def blockLists (v : View) (block : Node) : List Node :=
  (v.pairs block).filterMap fun p => if v.keyText p = "steps" then p.value else none

def blockItems? (v : View) (i : Item) : Option (List Item) := do
  let mapping ← i.value.bind v.mapping?
  let p ← (v.pairs mapping).head?
  if v.keyText p = "when" ∨ v.keyText p = "unless" then
    some (p.value.toList.flatMap fun block => (blockLists v block).flatMap v.items)
  else none

theorem blockItems?_eq_some_iff : blockItems? v i = some inner ↔ ∃ value mapping p, i.value = some value ∧
    v.mapping? value = some mapping ∧ (v.pairs mapping).head? = some p ∧
      (v.keyText p = "when" ∨ v.keyText p = "unless") ∧
      (p.value.toList.flatMap fun block => (blockLists v block).flatMap v.items) = inner := by
  simp only [blockItems?, bind, Option.bind_eq_some_iff, Option.ite_none_right_eq_some, Option.some.injEq]
  constructor
  · rintro ⟨mapping, ⟨value, hvalue, hmapping⟩, p, hp, hkey, hinner⟩
    exact ⟨value, mapping, p, hvalue, hmapping, hp, hkey, hinner⟩
  · rintro ⟨value, mapping, p, hvalue, hmapping, hp, hkey, hinner⟩
    exact ⟨mapping, ⟨value, hvalue, hmapping⟩, p, hp, hkey, hinner⟩

/-- The first list with the items of its blocks in place of the blocks, and so on inside of them. -/
inductive Flattens (v : View) : List Item → List Item → Prop where
  | nil : Flattens v [] []
  | step {i : Item} {items flat : List Item} (single : blockItems? v i = none) (rest : Flattens v items flat) :
      Flattens v (i :: items) (i :: flat)
  | block {i : Item} {inner items flat flat' : List Item} (block : blockItems? v i = some inner)
      (inside : Flattens v inner flat) (rest : Flattens v items flat') : Flattens v (i :: items) (flat ++ flat')

namespace Flattens

private theorem append {items' flat' : List Item} (h : Flattens v items flat) (h' : Flattens v items' flat') :
    Flattens v (items ++ items') (flat ++ flat') := by
  induction h with
  | nil => exact h'
  | step single _ ih => exact .step single ih
  | block block inside _ _ ih =>
    rw [List.append_assoc]
    exact .block block inside ih

private theorem unique {other : List Item} (h : Flattens v items flat) (h' : Flattens v items other) :
    other = flat := by
  induction h generalizing other with
  | nil =>
    cases h'
    rfl
  | step single _ ih =>
    cases h' with
    | step _ rest => rw [ih rest]
    | block block _ _ => cases single.symm.trans block
  | block block _ _ ihInside ihRest =>
    cases h' with
    | step single _ => cases single.symm.trans block
    | block block' inside rest =>
      obtain rfl := Option.some.inj (block.symm.trans block')
      rw [ihInside inside, ihRest rest]

/-- No blocks are left in a flat list. -/
theorem blockItems?_eq_none (h : Flattens v items flat) : ∀ i ∈ flat, blockItems? v i = none := by
  induction h with
  | nil => exact List.forall_mem_nil _
  | step single _ ih => exact List.forall_mem_cons.mpr ⟨single, ih⟩
  | block _ _ _ ihInside ihRest => exact List.forall_mem_append.mpr ⟨ihInside, ihRest⟩

/-- What holds of the items of a list and of those of all lists holds of the items of the flat list. -/
theorem forall_mem {P : Item → Prop} (h : Flattens v items flat) (hlists : ∀ n, ∀ i ∈ v.items n, P i)
    (hitems : ∀ i ∈ items, P i) : ∀ i ∈ flat, P i := by
  induction h with
  | nil => exact hitems
  | step _ _ ih =>
    obtain ⟨hfirst, hrest⟩ := List.forall_mem_cons.mp hitems
    exact List.forall_mem_cons.mpr ⟨hfirst, ih hrest⟩
  | @block i inner _ _ _ block _ _ ihInside ihRest =>
    refine List.forall_mem_append.mpr ⟨ihInside fun j hj => ?_, ihRest (List.forall_mem_cons.mp hitems).2⟩
    obtain ⟨value, mapping, p, -, -, -, -, rfl⟩ := blockItems?_eq_some_iff.mp block
    obtain ⟨node, -, hj⟩ := List.mem_flatMap.mp hj
    obtain ⟨list, -, hj⟩ := List.mem_flatMap.mp hj
    exact hlists list j hj

end Flattens

/-- Fuel that is enough for each of some lists of nodes. -/
private theorem exists_fuel {α : Type} (values : α → List Node) (xs : List α) :
    ∃ fuel, ∀ x ∈ xs, fuelFor v (values x) ≤ fuel := by
  induction xs with
  | nil => exact ⟨0, List.forall_mem_nil _⟩
  | cons x xs ih =>
    obtain ⟨fuel, hfuel⟩ := ih
    refine ⟨fuelFor v (values x) + fuel, List.forall_mem_cons.mpr ⟨Nat.le_add_right _ _, fun y hy => ?_⟩⟩
    exact Nat.le_add_left_of_le (hfuel y hy)

theorem readSteps_eq (v : View) (n : Node) : readSteps v n = gather (readStep v) (v.items n) := by
  obtain ⟨fuel, hfuel⟩ := exists_fuel (v := v) (fun i => i.value.toList) (v.items n)
  rw [← steps_of_fuelFor_le (Nat.le_succ_of_le (Nat.le_add_right _ fuel)), steps]
  exact gather_congr fun i hi => step_of_fuelFor_le (Nat.le_add_left_of_le (hfuel i hi))

/-- The lists of a block are read one after the other. -/
theorem conditional_eq {fuel : Nat} {block : Node} (hfuel : ∀ list ∈ blockLists v block, fuelFor v [list] ≤ fuel) :
    conditional v (fuel + 1) block = gather (readStep v) ((blockLists v block).flatMap v.items) := by
  calc conditional v (fuel + 1) block
      = gather (fun p => (if v.keyText p = "steps" then p.value else none).elim (pure []) (steps v fuel))
          (v.pairs block) := by
        rw [conditional]
        refine gather_congr fun p _ => ?_
        by_cases hsteps : v.keyText p = "steps" <;> cases p.value <;> simp [hsteps]
    _ = gather (steps v fuel) (blockLists v block) := (gather_filterMap _ _ _).symm
    _ = gather (fun list => gather (readStep v) (v.items list)) (blockLists v block) :=
        gather_congr fun list hlist => (steps_of_fuelFor_le (hfuel list hlist)).trans (readSteps_eq v list)
    _ = gather (readStep v) ((blockLists v block).flatMap v.items) := (gather_flatMap _ _ _).symm

/-- A block is read as the items of its lists are. -/
theorem readStep_eq_gather (h : blockItems? v i = some inner) : readStep v i = gather (readStep v) inner := by
  obtain ⟨value, mapping, p, hvalue, hmapping, hp, hkey, rfl⟩ := blockItems?_eq_some_iff.mp h
  cases hblock : p.value with
  | none =>
    rw [← step_of_fuelFor_le (Nat.le_succ _), step]
    simp only [hvalue, hmapping, hp, hblock]
    rfl
  | some block =>
    have hrun : v.keyText p ≠ "run" := by rintro heq; simp [heq] at hkey
    have hdeploy : v.keyText p ≠ "deploy" := by rintro heq; simp [heq] at hkey
    -- One number is enough for the lists of the block and for the item itself.
    obtain ⟨fuel, hlists, hitem⟩ :
        ∃ fuel, (∀ list ∈ blockLists v block, fuelFor v [list] ≤ fuel) ∧ fuelFor v i.value.toList ≤ fuel := by
      obtain ⟨fuel, hfuel⟩ := exists_fuel (v := v) (fun list => [list]) (blockLists v block)
      exact ⟨fuelFor v i.value.toList + fuel, fun list hlist => Nat.le_add_left_of_le (hfuel list hlist),
        Nat.le_add_right _ _⟩
    have hstep : step v (fuel + 2) i = readStep v i := step_of_fuelFor_le (by omega)
    rw [← hstep, step]
    simp only [hvalue, hmapping, hp, hblock, if_neg hrun, if_neg hdeploy, if_pos hkey]
    rw [conditional_eq hlists, Option.toList_some, List.flatMap_singleton]

/-- A list of items is read as the flat list is. -/
theorem Flattens.gather_eq (h : Flattens v items flat) :
    gather (readStep v) items = gather (readStep v) flat := by
  induction h with
  | nil => rfl
  | step _ _ ih =>
    refine eq_of_ok_iff fun all ds => ?_
    rw [gather_cons_eq_ok_iff, gather_cons_eq_ok_iff, ih]
  | block block _ _ ihInside ihRest =>
    refine eq_of_ok_iff fun all ds => ?_
    rw [gather_cons_eq_ok_iff, gather_append_eq_ok_iff, readStep_eq_gather block, ihInside, ihRest]

/-- An item that is no block is at most one step. -/
theorem always_length_readStep (h : blockItems? v i = none) :
    Always (fun steps => steps.length ≤ 1) (readStep v i) := by
  have hshort : ∀ s : Step, Always (fun steps => steps.length ≤ 1) (pure [s]) := fun s => always_pure (Nat.le_refl 1)
  rw [← step_of_fuelFor_le (Nat.le_succ _), step]
  split
  · exact hshort _
  · next value hvalue =>
    split
    · split
      · exact hshort _
      · exact hshort _
    · next mapping hmapping =>
      split
      · exact always_pure (Nat.zero_le 1)
      · next p hp =>
        split
        · exact always_pure (Nat.zero_le 1)
        · next body hbody =>
          have hblock : ¬(v.keyText p = "when" ∨ v.keyText p = "unless") := by
            intro hkey
            simp [blockItems?, hvalue, hmapping, hp, hkey] at h
          dsimp only
          rw [if_neg hblock]
          split
          · exact hshort _
          · split
            · exact hshort _
            · split
              · exact hshort _
              · exact always_bind fun _ => hshort _

/-- There is a flat list where there is one for what stands in each block. -/
theorem exists_flattens_of_forall
    (h : ∀ i ∈ items, ∀ inner, blockItems? v i = some inner → ∃ flat, Flattens v inner flat) :
    ∃ flat, Flattens v items flat := by
  induction items with
  | nil => exact ⟨[], .nil⟩
  | cons i items ih =>
    obtain ⟨hfirst, hrest⟩ := List.forall_mem_cons.mp h
    obtain ⟨flat, hflat⟩ := ih hrest
    cases hi : blockItems? v i with
    | none => exact ⟨_, .step hi hflat⟩
    | some inner =>
      obtain ⟨flat', hinner⟩ := hfirst inner hi
      exact ⟨_, .block hi hinner hflat⟩

/-- There is a flat list of some lists where there is one of each. -/
theorem exists_flattens_flatMap {lists : List Node} (h : ∀ list ∈ lists, ∃ flat, Flattens v (v.items list) flat) :
    ∃ flat, Flattens v (lists.flatMap v.items) flat := by
  induction lists with
  | nil => exact ⟨[], .nil⟩
  | cons list lists ih =>
    obtain ⟨⟨flat, hflat⟩, hrest⟩ := List.forall_mem_cons.mp h
    obtain ⟨flat', hflat'⟩ := ih hrest
    exact ⟨flat ++ flat', hflat.append hflat'⟩

/-- A list that is read to an end has a flat one. A block takes three calls: for the item, for the block and for each of
its lists. -/
theorem exists_flattens_of_endsWithin {fuel : Nat} (h : (Call.steps n).EndsWithin v fuel) :
    ∃ flat, Flattens v (v.items n) flat := by
  induction fuel using Nat.strongRecOn generalizing n with
  | ind fuel ih =>
    refine exists_flattens_of_forall fun i hi inner hinner => ?_
    obtain ⟨value, mapping, p, hvalue, hmapping, hp, hkey, rfl⟩ := blockItems?_eq_some_iff.mp hinner
    cases hblock : p.value with
    | none => exact ⟨[], .nil⟩
    | some block =>
      have hrun : ¬(v.keyText p = "run" ∨ v.keyText p = "deploy") := by rcases hkey with heq | heq <;> simp [heq]
      rw [Option.toList_some, List.flatMap_singleton]
      refine exists_flattens_flatMap fun list hlist => ?_
      have hitem : Call.Makes v (.steps n) (.step i) := List.mem_map_of_mem hi
      have hconditional : Call.Makes v (.step i) (.conditional block) := by
        simp [Call.Makes, Call.next, hvalue, hmapping, hp, Call.ofPair, hblock, if_neg hrun, if_pos hkey]
      have hsteps : Call.Makes v (.conditional block) (.steps list) := by
        obtain ⟨q, hq, hvalue⟩ := List.mem_filterMap.mp hlist
        obtain ⟨hsteps, hvalue⟩ := Option.ite_none_right_eq_some.mp hvalue
        exact List.mem_filterMap.mpr ⟨q, hq, by rw [if_pos hsteps, hvalue]; rfl⟩
      obtain ⟨less, hless, hends⟩ := h.transGen (.tail (.tail (.single hitem) hconditional) hsteps)
      exact ih less hless hends

/-- A list in block style with some items. -/
def listOf (items : List Item) : Node :=
  { kind := .blockSequence, start := {}, stop := {}, children := items.map (·.node) }

private theorem items_listOf (h : ∀ i ∈ items, v.item? i.node = some i) : v.items (listOf items) = items := by
  have hsequence : v.sequence? (listOf items) = some (listOf items) := rfl
  have hsome : items.filterMap (fun i => v.item? i.node) = items.filterMap some := List.filterMap_congr h
  rw [View.items, hsequence]
  simp only [listOf, List.filterMap_map]
  exact hsome.trans List.filterMap_some

/-- A list of steps in which no value contains itself through an alias has just one flat list, with the items of their
lists in place of all conditional blocks. It is read as a list of the flat items is: their steps, at most one of each,
and what is found in them, both in the order of the items. -/
theorem conditionals_transparent (v : View) (n : Node) (h : ∀ m, v.Reaches n m → ¬v.Contains m m) :
    ∃ flat, Flattens v (v.items n) flat ∧ (∀ other, Flattens v (v.items n) other → other = flat) ∧
      (∀ i ∈ flat, blockItems? v i = none) ∧
      v.items (listOf flat) = flat ∧ readSteps v n = readSteps v (listOf flat) ∧
      ∃ parts, Forall₂ (fun i part => readStep v i = Except.ok part ∧ part.1.length ≤ 1) flat parts ∧
        readSteps v n = Except.ok ((parts.map Prod.fst).flatten, (parts.map Prod.snd).flatten) := by
  have hends : ¬(Call.steps n).Circular v := by
    intro hcircular
    obtain ⟨root, hroot, m, hm, hself⟩ := hcircular.contains_itself
    obtain rfl := List.mem_singleton.mp hroot
    exact h m hm hself
  obtain ⟨flat, hflat⟩ := exists_flattens_of_endsWithin (Call.endsWithin_depth_iff.mpr hends)
  have hitems : v.items (listOf flat) = flat :=
    items_listOf (hflat.forall_mem (fun _ _ hi => (below_of_mem_items hi).eq) fun _ hi => (below_of_mem_items hi).eq)
  have hread : readSteps v n = gather (readStep v) flat := (readSteps_eq v n).trans hflat.gather_eq
  refine ⟨flat, hflat, fun other => hflat.unique, hflat.blockItems?_eq_none, hitems, ?_, ?_⟩
  · rw [hread, readSteps_eq, hitems]
  · obtain ⟨⟨steps, ds⟩, hsteps⟩ := returns_readSteps_iff.mpr hends
    obtain ⟨parts, hparts, rfl, rfl⟩ := gather_eq_ok_iff.mp (hread ▸ hsteps)
    have hsingle := (List.forall₂_and_left _ _).mpr ⟨hflat.blockItems?_eq_none, hparts⟩
    exact ⟨parts, hsingle.imp fun i part h => ⟨h.2, always_length_readStep h.1 _ _ h.2⟩, hsteps⟩

/-- Steps with conditional blocks in blocks, an aliased list that stands in two of them, an empty list, and a list that
is merged into its block. -/
def conditionalSteps : Tree := Grammar.strict.tree <| String.toList <| "shared: &shared
  - checkout
  - unless: {condition: a, steps: []}
merged: &merged
  steps: *shared
steps:
  - run: one
  - when:
      condition: b
      steps: *shared
      steps:
        - unless: {<<: *merged}
        - greet
  - run: two
"

def conditionalList : Node := ((ofTree conditionalSteps).field? conditionalSteps.top "steps").getD conditionalSteps.top

/-- Blocks in blocks, with an aliased list and a merged one. -/
theorem conditionals_transparent_shared :
    (∀ m, (ofTree conditionalSteps).Reaches conditionalList m → ¬(ofTree conditionalSteps).Contains m m) ∧
      (readSteps (ofTree conditionalSteps) conditionalList).toOption.map (fun read => read.1.length) = some 5 ∧
      ∃ flat, Flattens (ofTree conditionalSteps) ((ofTree conditionalSteps).items conditionalList) flat ∧
        readSteps (ofTree conditionalSteps) conditionalList = readSteps (ofTree conditionalSteps) (listOf flat) := by
  obtain ⟨hlist, hback, hsteps⟩ : conditionalList ∈ conditionalSteps.root.preorder ∧ LooksBack conditionalSteps ∧
      (readSteps (ofTree conditionalSteps) conditionalList).toOption.map (fun read => read.1.length) = some 5 := by
    delta conditionalList conditionalSteps
    rw [String.toList_ofList]
    decide +kernel
  have hself := fun m hm => hback.not_contains_self (m := m) hlist hm
  obtain ⟨flat, hflat, -, -, -, hread, -⟩ := conditionals_transparent (ofTree conditionalSteps) conditionalList hself
  exact ⟨hself, hsteps, flat, hflat, hread⟩

end Read

end PipelineLint
