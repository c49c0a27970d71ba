import PipelineLint.Model.Step
import PipelineLint.Proofs.Addresses

/-! # Steps inside steps

A step that invokes a command assigns values, and values hold steps again, at any depth. `Inside` tells so by rules,
one for each place where a step can stand; `Step.walk` visits just these steps.

A step has an address below another one: the numbers of the parameters, items, entries and steps that lead to it. A walk
visits each address below its step once, from the outside in (`Step.exact_visits`).
-/

namespace PipelineLint

namespace Step

mutual
/-- A step is another one, or stands inside the values that it assigns. -/
inductive Inside (inner : Step) : Step → Prop where
  | self : Inside inner inner
  | parameter {call : Invocation} {a : Assignment} (given : a ∈ call.parameters) (inside : InsideValue inner a.value) :
      Inside inner (.named call)
inductive InsideValue (inner : Step) : Value → Prop where
  | steps {sts : List Step} {st : Step} (given : st ∈ sts) (inside : Inside inner st) : InsideValue inner (.steps sts)
  | list {items : List Assignment} {a : Assignment} (item : a ∈ items) (inside : InsideValue inner a.value) :
      InsideValue inner (.list items)
  | map {entries : List Assignment} {a : Assignment} (entry : a ∈ entries) (inside : InsideValue inner a.value) :
      InsideValue inner (.map entries)
end

def Among (inner : Step) (sts : List Step) : Prop := ∃ st ∈ sts, Inside inner st

variable {inner : Step}

theorem inside_named_iff {call : Invocation} :
    Inside inner (.named call) ↔ inner = .named call ∨ ∃ a ∈ call.parameters, InsideValue inner a.value := by
  constructor
  · intro h
    cases h with
    | self => exact .inl rfl
    | parameter given inside => exact .inr ⟨_, given, inside⟩
  · rintro (rfl | ⟨a, given, inside⟩)
    · exact .self
    · exact .parameter given inside

/-- Nothing stands inside a step that invokes nothing. -/
theorem inside_iff_eq {st : Step} (h : ∀ call, st ≠ .named call) : Inside inner st ↔ inner = st := by
  constructor
  · intro hinside
    cases hinside with
    | self => rfl
    | parameter => exact absurd rfl (h _)
  · rintro rfl
    exact .self

mutual
/-- A walk visits the step and the steps inside it, and no others. -/
theorem mem_walk_iff : (st : Step) → (inner ∈ st.walk ↔ Inside inner st)
  | .named ⟨name, range, parameters, parametersRange⟩ => by
    rw [walk, List.mem_cons, mem_walkAssignments_iff parameters, inside_named_iff]
  | .run _ | .checkout .. | .setupRemoteDocker .. | .saveCache .. | .restoreCache .. | .storeArtifacts ..
  | .storeTestResults .. | .persistToWorkspace .. | .attachWorkspace .. | .addSshKeys .. | .steps .. => by
    rw [walk, List.mem_singleton, inside_iff_eq]
    all_goals nofun
theorem mem_walkAssignments_iff :
    (as : List Assignment) → (inner ∈ walkAssignments as ↔ ∃ a ∈ as, InsideValue inner a.value)
  | [] => by simp [walkAssignments]
  | ⟨_, v, _, _⟩ :: as => by
    simp only [walkAssignments, walkAssignment, List.mem_append, mem_walkValue_iff v, mem_walkAssignments_iff as,
      List.mem_cons, exists_eq_or_imp]
theorem mem_walkValue_iff : (v : Value) → (inner ∈ walkValue v ↔ InsideValue inner v)
  | .steps sts => by
    rw [walkValue, mem_walkSteps_iff sts]
    constructor
    · rintro ⟨st, given, inside⟩
      exact .steps given inside
    · rintro (⟨given, inside⟩)
      exact ⟨_, given, inside⟩
  | .list items => by
    rw [walkValue, mem_walkAssignments_iff items]
    constructor
    · rintro ⟨a, item, inside⟩
      exact .list item inside
    · rintro (_ | ⟨item, inside⟩)
      exact ⟨_, item, inside⟩
  | .map entries => by
    rw [walkValue, mem_walkAssignments_iff entries]
    constructor
    · rintro ⟨a, entry, inside⟩
      exact .map entry inside
    · rintro (_ | _ | ⟨entry, inside⟩)
      exact ⟨_, entry, inside⟩
  | .text _ | .truth _ | .number _ | .alias _ => by
    refine iff_of_false (by simp [walkValue]) ?_
    rintro ⟨⟩
theorem mem_walkSteps_iff : (sts : List Step) → (inner ∈ walkSteps sts ↔ Among inner sts)
  | [] => by simp [walkSteps, Among]
  | st :: sts => by
    simp only [walkSteps, List.mem_append, mem_walk_iff st, mem_walkSteps_iff sts, Among, List.mem_cons, exists_eq_or_imp]
end

open Addresses

mutual
/-- A step stands at an address below another one, where the empty address is that of the other one itself. -/
inductive StandsAt (inner : Step) : List Nat → Step → Prop where
  | self : StandsAt inner [] inner
  | parameter {call : Invocation} {a : Assignment} {i : Nat} {path : List Nat} (given : call.parameters[i]? = some a)
      (stands : StandsInValue inner path a.value) : StandsAt inner (i :: path) (.named call)
inductive StandsInValue (inner : Step) : List Nat → Value → Prop where
  | steps {sts : List Step} {st : Step} {i : Nat} {path : List Nat} (given : sts[i]? = some st)
      (stands : StandsAt inner path st) : StandsInValue inner (i :: path) (.steps sts)
  | list {items : List Assignment} {a : Assignment} {i : Nat} {path : List Nat} (item : items[i]? = some a)
      (stands : StandsInValue inner path a.value) : StandsInValue inner (i :: path) (.list items)
  | map {entries : List Assignment} {a : Assignment} {i : Nat} {path : List Nat} (entry : entries[i]? = some a)
      (stands : StandsInValue inner path a.value) : StandsInValue inner (i :: path) (.map entries)
end

mutual
def visits : Step → List (List Nat × Step)
  | .named ⟨name, range, parameters, parametersRange⟩ =>
    ([], .named ⟨name, range, parameters, parametersRange⟩) :: numbered 0 (assignmentVisits parameters)
  | st => [([], st)]
def assignmentVisits : List Assignment → List (List (List Nat × Step))
  | [] => []
  | ⟨_, value, _, _⟩ :: as => valueVisits value :: assignmentVisits as
def valueVisits : Value → List (List Nat × Step)
  | .steps sts => numbered 0 (stepVisits sts)
  | .list items => numbered 0 (assignmentVisits items)
  | .map entries => numbered 0 (assignmentVisits entries)
  | _ => []
def stepVisits : List Step → List (List (List Nat × Step))
  | [] => []
  | st :: sts => visits st :: stepVisits sts
end

variable {path : List Nat}

mutual
theorem map_snd_visits : (st : Step) → st.visits.map Prod.snd = st.walk
  | .named ⟨_, _, parameters, _⟩ => by
    rw [visits, walk, List.map_cons, map_snd_numbered, flatten_assignmentVisits parameters]
  | .run _ | .checkout .. | .setupRemoteDocker .. | .saveCache .. | .restoreCache .. | .storeArtifacts ..
  | .storeTestResults .. | .persistToWorkspace .. | .attachWorkspace .. | .addSshKeys .. | .steps .. => by
    rw [visits, walk, List.map_singleton]
    all_goals nofun
theorem flatten_assignmentVisits :
    (as : List Assignment) → ((assignmentVisits as).map (List.map Prod.snd)).flatten = walkAssignments as
  | [] => by simp [assignmentVisits, walkAssignments]
  | ⟨_, v, _, _⟩ :: as => by
    rw [assignmentVisits, walkAssignments, walkAssignment, List.map_cons, List.flatten_cons, map_snd_valueVisits v,
      flatten_assignmentVisits as]
theorem map_snd_valueVisits : (v : Value) → (valueVisits v).map Prod.snd = walkValue v
  | .steps sts => by rw [valueVisits, walkValue, map_snd_numbered, flatten_stepVisits sts]
  | .list items => by rw [valueVisits, walkValue, map_snd_numbered, flatten_assignmentVisits items]
  | .map entries => by rw [valueVisits, walkValue, map_snd_numbered, flatten_assignmentVisits entries]
  | .text _ | .truth _ | .number _ | .alias _ => by simp [valueVisits, walkValue]
theorem flatten_stepVisits : (sts : List Step) → ((stepVisits sts).map (List.map Prod.snd)).flatten = walkSteps sts
  | [] => by simp [stepVisits, walkSteps]
  | st :: sts => by
    rw [stepVisits, walkSteps, List.map_cons, List.flatten_cons, map_snd_visits st, flatten_stepVisits sts]
end

theorem standsAt_named_iff {call : Invocation} : StandsAt inner path (.named call) ↔
    path = [] ∧ inner = .named call ∨
      ∃ i rest a, path = i :: rest ∧ call.parameters[i]? = some a ∧ StandsInValue inner rest a.value := by
  constructor
  · intro h
    cases h with
    | self => exact .inl ⟨rfl, rfl⟩
    | parameter given stands => exact .inr ⟨_, _, _, rfl, given, stands⟩
  · rintro (⟨rfl, rfl⟩ | ⟨i, rest, a, rfl, given, stands⟩)
    · exact .self
    · exact .parameter given stands

/-- Nothing stands below a step that invokes nothing. -/
theorem standsAt_iff_eq {st : Step} (h : ∀ call, st ≠ .named call) :
    StandsAt inner path st ↔ path = [] ∧ inner = st := by
  constructor
  · intro hstands
    cases hstands with
    | self => exact ⟨rfl, rfl⟩
    | parameter => exact absurd rfl (h _)
  · rintro ⟨rfl, rfl⟩
    exact .self

theorem standsInValue_steps_iff {sts : List Step} : StandsInValue inner path (.steps sts) ↔
    ∃ i rest st, path = i :: rest ∧ sts[i]? = some st ∧ StandsAt inner rest st := by
  constructor
  · rintro (⟨given, stands⟩)
    exact ⟨_, _, _, rfl, given, stands⟩
  · rintro ⟨i, rest, st, rfl, given, stands⟩
    exact .steps given stands

theorem standsInValue_list_iff {items : List Assignment} : StandsInValue inner path (.list items) ↔
    ∃ i rest a, path = i :: rest ∧ items[i]? = some a ∧ StandsInValue inner rest a.value := by
  constructor
  · rintro (_ | ⟨item, stands⟩)
    exact ⟨_, _, _, rfl, item, stands⟩
  · rintro ⟨i, rest, a, rfl, item, stands⟩
    exact .list item stands

theorem standsInValue_map_iff {entries : List Assignment} : StandsInValue inner path (.map entries) ↔
    ∃ i rest a, path = i :: rest ∧ entries[i]? = some a ∧ StandsInValue inner rest a.value := by
  constructor
  · rintro (_ | _ | ⟨entry, stands⟩)
    exact ⟨_, _, _, rfl, entry, stands⟩
  · rintro ⟨i, rest, a, rfl, entry, stands⟩
    exact .map entry stands

theorem assignmentVisits_eq (as : List Assignment) : assignmentVisits as = as.map fun a => valueVisits a.value := by
  induction as with
  | nil => simp [assignmentVisits]
  | cons a as ih =>
    obtain ⟨_, v, _, _⟩ := a
    rw [assignmentVisits, ih, List.map_cons]

theorem stepVisits_eq (sts : List Step) : stepVisits sts = sts.map visits := by
  induction sts with
  | nil => simp [stepVisits]
  | cons st sts ih => rw [stepVisits, ih, List.map_cons]

mutual
/-- A walk goes to the addresses below its step. -/
theorem mem_visits_iff : (st : Step) → ∀ path, (path, inner) ∈ st.visits ↔ StandsAt inner path st
  | .named ⟨_, _, parameters, _⟩ => fun path => by
    rw [visits, List.mem_cons, Prod.mk.injEq, assignmentVisits_eq,
      mem_numbered_map_iff (mem_valueVisits_of_mem parameters), standsAt_named_iff]
  | .run _ | .checkout .. | .setupRemoteDocker .. | .saveCache .. | .restoreCache .. | .storeArtifacts ..
  | .storeTestResults .. | .persistToWorkspace .. | .attachWorkspace .. | .addSshKeys .. | .steps .. => fun path => by
    rw [visits, List.mem_singleton, Prod.mk.injEq, standsAt_iff_eq]
    all_goals nofun
theorem mem_valueVisits_of_mem : (as : List Assignment) →
    ∀ a ∈ as, ∀ path, (path, inner) ∈ valueVisits a.value ↔ StandsInValue inner path a.value
  | [] => nofun
  | ⟨_, v, _, _⟩ :: as => List.forall_mem_cons.mpr ⟨mem_valueVisits_iff v, mem_valueVisits_of_mem as⟩
theorem mem_valueVisits_iff : (v : Value) → ∀ path, (path, inner) ∈ valueVisits v ↔ StandsInValue inner path v
  | .steps sts => fun path => by
    rw [valueVisits, stepVisits_eq, mem_numbered_map_iff (mem_visits_of_mem sts), standsInValue_steps_iff]
  | .list items => fun path => by
    rw [valueVisits, assignmentVisits_eq, mem_numbered_map_iff (mem_valueVisits_of_mem items), standsInValue_list_iff]
  | .map entries => fun path => by
    rw [valueVisits, assignmentVisits_eq, mem_numbered_map_iff (mem_valueVisits_of_mem entries), standsInValue_map_iff]
  | .text _ | .truth _ | .number _ | .alias _ => fun path => by
    refine iff_of_false (by simp [valueVisits]) ?_
    rintro ⟨⟩
theorem mem_visits_of_mem : (sts : List Step) → ∀ st ∈ sts, ∀ path, (path, inner) ∈ st.visits ↔ StandsAt inner path st
  | [] => nofun
  | st :: sts => List.forall_mem_cons.mpr ⟨mem_visits_iff st, mem_visits_of_mem sts⟩
end

mutual
/-- A walk goes through the addresses in their order. -/
theorem ordered_visits : (st : Step) → (st.visits.map Prod.fst).Pairwise (· < ·)
  | .named ⟨_, _, parameters, _⟩ => by
    rw [visits]
    exact ordered_cons _ (ordered_assignmentVisits parameters)
  | .run _ | .checkout .. | .setupRemoteDocker .. | .saveCache .. | .restoreCache .. | .storeArtifacts ..
  | .storeTestResults .. | .persistToWorkspace .. | .attachWorkspace .. | .addSshKeys .. | .steps .. => by
    rw [visits]
    · exact List.pairwise_singleton _ _
    all_goals nofun
theorem ordered_assignmentVisits :
    (as : List Assignment) → ∀ part ∈ assignmentVisits as, (part.map Prod.fst).Pairwise (· < ·)
  | [] => by
    rw [assignmentVisits]
    exact List.forall_mem_nil _
  | ⟨_, v, _, _⟩ :: as => by
    rw [assignmentVisits]
    exact List.forall_mem_cons.mpr ⟨ordered_valueVisits v, ordered_assignmentVisits as⟩
theorem ordered_valueVisits : (v : Value) → ((valueVisits v).map Prod.fst).Pairwise (· < ·)
  | .steps sts => by
    rw [valueVisits]
    exact ordered_numbered 0 (ordered_stepVisits sts)
  | .list items => by
    rw [valueVisits]
    exact ordered_numbered 0 (ordered_assignmentVisits items)
  | .map entries => by
    rw [valueVisits]
    exact ordered_numbered 0 (ordered_assignmentVisits entries)
  | .text _ | .truth _ | .number _ | .alias _ => by simp [valueVisits]
theorem ordered_stepVisits : (sts : List Step) → ∀ part ∈ stepVisits sts, (part.map Prod.fst).Pairwise (· < ·)
  | [] => by
    rw [stepVisits]
    exact List.forall_mem_nil _
  | st :: sts => by
    rw [stepVisits]
    exact List.forall_mem_cons.mpr ⟨ordered_visits st, ordered_stepVisits sts⟩
end

/-- A walk visits all that stands below its step, each address once. -/
theorem exact_visits (st : Step) : Exact (fun path inner => StandsAt inner path st) st.visits where
  mem_iff path _ := mem_visits_iff st path
  ordered := ordered_visits st

/-- What stands inside a step stands at some address below it. -/
theorem inside_iff_exists_standsAt {st : Step} : Inside inner st ↔ ∃ path, StandsAt inner path st := by
  rw [← mem_walk_iff, ← map_snd_visits, List.mem_map]
  constructor
  · rintro ⟨⟨path, _⟩, hmem, rfl⟩
    exact ⟨path, (mem_visits_iff st path).mp hmem⟩
  · rintro ⟨path, hstands⟩
    exact ⟨(path, inner), (mem_visits_iff st path).mpr hstands, rfl⟩

end Step

end PipelineLint
