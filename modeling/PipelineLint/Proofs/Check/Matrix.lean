import PipelineLint.Concrete.Host
import PipelineLint.Proofs.Check.Said
import PipelineLint.Proofs.Document.Assigned
import Mathlib.Data.List.Sections

/-! # A matrix and its expansions

A matrix lists values for parameters of a job, and stands for one use of the job for each choice of a value for every
parameter. `JobUse.expansions` are these uses. The values of a matrix are checked list by list, and not expansion by
expansion; nothing is found all the same just if nothing is found in any expansion.
-/

namespace PipelineLint

namespace Value

def items : Value → List Assignment
  | .list items => items
  | _ => []

end Value

namespace JobUse

/-- The choices of an item for each parameter of the matrix, with the items under the names of the parameters. -/
def choices (use : JobUse) : List Assignments :=
  (use.matrix.map fun m => m.value.items.map fun item => { item with name := m.name }).sections

/-- The use without a matrix and with chosen items among its values. -/
def expand (use : JobUse) (chosen : Assignments) : JobUse :=
  { use with hasMatrix := false, matrix := [], parameters := chosen.foldl Assignments.insert use.parameters }

/-- The uses that a use with a matrix stands for. -/
def expansions (use : JobUse) : List JobUse := use.choices.map use.expand

/-- The matrix lists values for parameters that have no other. -/
structure HasListMatrix (use : JobUse) : Prop where
  /-- Every parameter of the matrix has a list of values, and at least one. -/
  listed : ∀ m ∈ use.matrix, ∃ item items, m.value = .list (item :: items)
  /-- No parameter of the matrix has a value outside it. -/
  unassigned : ∀ m ∈ use.matrix, use.parameters.contains m.name = false
  distinct : (use.matrix.map (·.name)).Nodup

end JobUse

section sections

variable {α : Type} {P : α → Prop} {ls : List (List α)}

theorem sections_ne_nil (h : ∀ l ∈ ls, l ≠ []) : ls.sections ≠ [] := by
  induction ls with
  | nil => simp
  | cons l ls ih =>
    obtain ⟨hl, hls⟩ := List.forall_mem_cons.mp h
    simpa [List.flatMap_eq_nil_iff, hl] using List.exists_mem_of_ne_nil _ (ih hls)

theorem mem_sections_cons {l f : List α} : f ∈ (l :: ls).sections ↔ ∃ f' ∈ ls.sections, ∃ x ∈ l, x :: f' = f := by
  simp only [List.sections, List.mem_flatMap, List.mem_map]

/-- All choices are of members with a property just if all members have it. -/
theorem forall_mem_sections_iff (h : ∀ l ∈ ls, l ≠ []) :
    (∀ f ∈ ls.sections, ∀ x ∈ f, P x) ↔ ∀ l ∈ ls, ∀ x ∈ l, P x := by
  induction ls with
  | nil => simp
  | cons l ls ih =>
    obtain ⟨hl, hls⟩ := List.forall_mem_cons.mp h
    rw [List.forall_mem_cons, ← ih hls]
    constructor
    · intro hall
      -- A member of one list is part of a choice, as there is something to choose from every other.
      obtain ⟨y, hy⟩ := List.exists_mem_of_ne_nil _ hl
      obtain ⟨f₀, hf₀⟩ := List.exists_mem_of_ne_nil _ (sections_ne_nil hls)
      have hcons : ∀ x ∈ l, ∀ f ∈ ls.sections, ∀ z ∈ x :: f, P z :=
        fun x hx f hf => hall (x :: f) (mem_sections_cons.mpr ⟨f, hf, x, hx, rfl⟩)
      exact ⟨fun x hx => (List.forall_mem_cons.mp (hcons x hx f₀ hf₀)).1,
        fun f hf => (List.forall_mem_cons.mp (hcons y hy f hf)).2⟩
    · rintro ⟨hfirst, hrest⟩ f hf
      obtain ⟨f', hf', x, hx, rfl⟩ := mem_sections_cons.mp hf
      exact List.forall_mem_cons.mpr ⟨hfirst x hx, hrest f' hf'⟩

end sections

namespace Assignments

variable {as bs : Assignments}

@[simp] theorem contains_nil (name : String) : contains [] name = false := rfl

theorem contains_append (name : String) : contains (as ++ bs) name = (as.contains name || bs.contains name) :=
  List.any_append

theorem contains_eq_of_map_name_eq (h : as.map (·.name) = bs.map (·.name)) (name : String) :
    as.contains name = bs.contains name := by
  simpa [contains, List.any_map, Function.comp_def] using congrArg (List.any · (· == name)) h

theorem insert_eq_append {a : Assignment} (h : as.contains a.name = false) : as.insert a = as ++ [a] := by
  induction as with
  | nil => rfl
  | cons b as ih =>
    rw [contains, List.any_cons, Bool.or_eq_false_iff] at h
    simp only [insert, h.1, Bool.false_eq_true, if_false, ih h.2, List.cons_append]

/-- Values of names that are new, and each its own, come after those that are there. -/
theorem foldl_insert_eq_append (hnew : ∀ b ∈ bs, as.contains b.name = false) (hdistinct : (bs.map (·.name)).Nodup) :
    bs.foldl insert as = as ++ bs := by
  induction bs generalizing as with
  | nil => simp
  | cons b bs ih =>
    obtain ⟨hb, hbs⟩ := List.forall_mem_cons.mp hnew
    rw [List.map_cons, List.nodup_cons] at hdistinct
    rw [List.foldl_cons, ih _ hdistinct.2, insert_eq_append hb, List.append_assoc, List.singleton_append]
    intro c hc
    have hne : b.name ≠ c.name := fun heq => hdistinct.1 (List.mem_map.mpr ⟨c, hc, heq.symm⟩)
    simp [contains_insert, hbs c hc, hne]

end Assignments

namespace JobUse

variable {use : JobUse} {chosen : Assignments}

theorem map_name_of_mem_choices (h : chosen ∈ use.choices) : chosen.map (·.name) = use.matrix.map (·.name) := by
  have hchosen := List.forall₂_map_right_iff.mp (List.mem_sections.mp h)
  rw [← List.forall₂_eq_eq_eq, List.forall₂_map_left_iff, List.forall₂_map_right_iff]
  refine hchosen.imp fun c m hc => ?_
  obtain ⟨item, -, rfl⟩ := List.mem_map.mp hc
  rfl

namespace HasListMatrix

variable (h : use.HasListMatrix)
include h

theorem items_ne_nil : ∀ l ∈ use.matrix.map fun m => m.value.items.map fun item => { item with name := m.name },
    l ≠ [] := by
  refine List.forall_mem_map.mpr fun m hm => ?_
  obtain ⟨item, items, hlist⟩ := h.listed m hm
  simp [hlist, Value.items]

theorem choices_ne_nil : use.choices ≠ [] := sections_ne_nil h.items_ne_nil

/-- What all choices have, all items have under the names of their parameters. -/
theorem forall_mem_choices_iff {P : Assignment → Prop} : (∀ chosen ∈ use.choices, ∀ c ∈ chosen, P c) ↔
    ∀ m ∈ use.matrix, ∀ item ∈ m.value.items, P { item with name := m.name } := by
  rw [choices, forall_mem_sections_iff h.items_ne_nil]
  simp

private theorem parameters_expand (hchosen : chosen ∈ use.choices) :
    (use.expand chosen).parameters = use.parameters ++ chosen := by
  have hnames := map_name_of_mem_choices hchosen
  refine Assignments.foldl_insert_eq_append (fun c hc => ?_) (hnames ▸ h.distinct)
  obtain ⟨m, hm, hname⟩ := List.mem_map.mp (hnames ▸ List.mem_map.mpr ⟨c, hc, rfl⟩ : c.name ∈ _)
  rw [← hname]
  exact h.unassigned m hm

end HasListMatrix

end JobUse

namespace Check

open JobUse

variable {s : Scope} {declared : Parameters} {use : JobUse}

def namedValue (s : Scope) (entity : String) (declared : Parameters) (a : Assignment) : List Notice :=
  match declared.get? a.name with
  | some p => assignment s ∅ p entity a
  | none => [.finding (undeclared a.name entity a.range)]

private theorem values_eq_flatMap (entity : String) (as : Assignments) :
    values s ∅ entity declared as = as.flatMap (namedValue s entity declared) := by
  induction as with
  | nil => rfl
  | cons a as ih =>
    obtain ⟨name, v, valueRange, range⟩ := a
    rw [values, ih, List.flatMap_cons]
    rfl

/-- What is missing in an expansion, and what is found in the values outside the matrix, is what it is with the matrix.
-/
theorem jobUseParameters_expand (h : use.HasListMatrix) {chosen : Assignments} (hchosen : chosen ∈ use.choices) :
    jobUseParameters s (use.expand chosen) declared =
      (missing declared use.jobName use.jobNameRange fun name =>
        Assignments.contains use.parameters name || Assignments.contains use.matrix name).map .finding ++
      values s ∅ use.jobName declared use.parameters ++ chosen.flatMap (namedValue s use.jobName declared) := by
  have hnames := map_name_of_mem_choices hchosen
  have hgiven (name : String) : Assignments.contains (use.parameters ++ chosen) name =
      (Assignments.contains use.parameters name || Assignments.contains use.matrix name) := by
    rw [Assignments.contains_append, Assignments.contains_eq_of_map_name_eq hnames]
  have hmatrix : (use.expand chosen).matrix = [] := rfl
  simp only [jobUseParameters, h.parameters_expand hchosen, hgiven, values_eq_flatMap, List.flatMap_append, hmatrix,
    Assignments.contains_nil, Bool.or_false, List.flatMap_nil, List.append_nil, List.append_assoc]
  rfl

section silent

variable {silent : Notice → Prop} (hfinding : ∀ d, ¬silent (.finding d))
include hfinding

/-- Nothing is found in the values of a matrix for a parameter just if nothing is found in any item. -/
theorem each_matrixValue_iff {entity : String} {m item : Assignment} {items : List Assignment}
    (hlist : m.value = .list (item :: items)) : Each silent (matrixValue s entity declared m) ↔
      ∀ i ∈ m.value.items, Each silent (namedValue s entity declared { i with name := m.name }) := by
  cases hget : declared.get? m.name with
  | some p => simp only [matrixValue, namedValue, assignment, hget, hlist, Value.items, each_flatMap]
  | none =>
    simp only [matrixValue, namedValue, hget, hlist, Value.items, each_singleton, hfinding, false_iff]
    exact fun hnone => hnone item List.mem_cons_self

/-- Nothing is found in the values of a job with a matrix just if nothing is found in any expansion. -/
theorem each_jobUseParameters_iff (h : use.HasListMatrix) : Each silent (jobUseParameters s use declared) ↔
    ∀ e ∈ use.expansions, Each silent (jobUseParameters s e declared) := by
  have hmatrix : Each silent (use.matrix.flatMap (matrixValue s use.jobName declared)) ↔
      ∀ chosen ∈ use.choices, ∀ c ∈ chosen, Each silent (namedValue s use.jobName declared c) := by
    rw [h.forall_mem_choices_iff, each_flatMap]
    refine forall₂_congr fun m hm => ?_
    obtain ⟨item, items, hlist⟩ := h.listed m hm
    exact each_matrixValue_iff hfinding hlist
  rw [expansions, List.forall_mem_map, jobUseParameters, each_append, hmatrix]
  obtain ⟨chosen₀, hchosen₀⟩ := List.exists_mem_of_ne_nil _ h.choices_ne_nil
  constructor
  · rintro ⟨hrest, hchoices⟩ chosen hchosen
    rw [jobUseParameters_expand h hchosen, each_append, each_flatMap]
    exact ⟨hrest, hchoices chosen hchosen⟩
  · intro hall
    have hparts {chosen : Assignments} (hchosen : chosen ∈ use.choices) :=
      each_append.mp (jobUseParameters_expand h hchosen ▸ hall chosen hchosen)
    exact ⟨(hparts hchosen₀).1, fun chosen hchosen => each_flatMap.mp (hparts hchosen).2⟩

end silent

/-- Whoever answers a notice has at most the shell linter to ask, and not even that if scripts are not linted. -/
def NeedsLinterAtMost (s : Scope) : Notice → Prop
  | .finding _ => True
  | .image _ => False
  | .script _ => s.settings.lintsScripts = true

private theorem needsLinterAtMost_run {usable : Parameters} {r : Run} :
    Each (NeedsLinterAtMost s) (run s usable r) := by
  simp only [run, each_append, each_map, each_ite, each_singleton, each_nil]
  exact ⟨fun _ _ => trivial, id, fun _ => trivial⟩

private theorem SaidWithin.needsLinterAtMost {usable : Parameters} {inside : Step → Prop} {n : Notice}
    (h : SaidWithin s usable inside n) : NeedsLinterAtMost s n := by
  obtain hvalue | ⟨inner, -, hsaid⟩ := h
  · cases hvalue <;> trivial
  · cases hsaid with
    | run found => exact needsLinterAtMost_run _ found
    | value found => cases found <;> trivial
    | place | unknown | path | missing => trivial

private theorem needsLinterAtMost_jobUseParameters : Each (NeedsLinterAtMost s) (jobUseParameters s use declared) := by
  simp only [jobUseParameters, each_append, each_map, each_flatMap]
  refine ⟨⟨fun _ _ => trivial, fun n hn => (saidWithin_of_mem_values _ _ _ hn).needsLinterAtMost⟩, fun m _ => ?_⟩
  unfold matrixValue
  split
  · exact each_singleton.mpr trivial
  split
  · exact each_flatMap.mpr fun item _ n hn => (saidWithin_of_mem_value _ _ _ _ hn).needsLinterAtMost
  · exact each_nil
  · exact each_singleton.mpr trivial

end Check

namespace Shell.Linter

/-- The files that a linter leaves when it has been asked about scripts, one after the other. -/
inductive Leaves (l : Linter) (files : Files) : Files → Prop where
  | nothing : Leaves l files files
  | asked {f : Files} (before : Leaves l files f) (script : String) : Leaves l files (l.lint f script).2

/-- A linter has one answer to each script, whatever it was asked before. -/
def IsSteady (l : Linter) (files : Files) : Prop :=
  ∀ f, l.Leaves files f → ∀ script, (l.lint f script).1 = (l.lint files script).1

end Shell.Linter

namespace Analyzer

open Check

section steady

variable {a : Analyzer} {s : Check.Scope} {session t : Session} {notice : Notice} {notices : List Notice}
  (hlinter : s.settings.lintsScripts = true → a.linter.IsSteady session.files)
include hlinter

/-- A steady linter answers a notice as it does in the beginning. -/
theorem answer_eq_of_leaves (hneeds : NeedsLinterAtMost s notice) (h : a.linter.Leaves session.files t.files) :
    (a.answer t notice).1 = (a.answer session notice).1 ∧
      a.linter.Leaves session.files (a.answer t notice).2.files := by
  cases notice with
  | finding d => exact ⟨rfl, h⟩
  | image spec => exact hneeds.elim
  | script r =>
    have hsame := hlinter hneeds t.files h (Shell.scriptOf r.command)
    have hleaves := h.asked (Shell.scriptOf r.command)
    simp only [answer, lintScript]
    split
    · generalize a.linter.lint t.files (Shell.scriptOf r.command) = result at hsame hleaves ⊢
      generalize a.linter.lint session.files (Shell.scriptOf r.command) = result' at hsame ⊢
      obtain ⟨outcome, files⟩ := result
      obtain ⟨outcome', files'⟩ := result'
      obtain rfl : outcome = outcome' := hsame
      cases outcome <;> exact ⟨rfl, hleaves⟩
    · exact ⟨rfl, h⟩

private theorem answers_eq_nil_iff_of_leaves (hneeds : Each (NeedsLinterAtMost s) notices)
    (h : a.linter.Leaves session.files t.files) :
    (a.answers t notices).1 = [] ↔ Each (fun notice => (a.answer session notice).1 = []) notices := by
  induction notices generalizing t with
  | nil => exact iff_of_true rfl each_nil
  | cons notice notices ih =>
    obtain ⟨hnotice, hnotices⟩ := each_cons.mp hneeds
    obtain ⟨hanswer, hleaves⟩ := answer_eq_of_leaves hlinter hnotice h
    rw [answers, each_cons, ← ih hnotices hleaves, ← hanswer]
    exact List.append_eq_nil_iff

/-- Nothing is found in the values of a job with a matrix just if nothing is found in any of its expansions. -/
theorem answers_jobUseParameters_eq_nil_iff (declared : Parameters) {use : JobUse} (h : use.HasListMatrix) :
    (a.answers session (jobUseParameters s use declared)).1 = [] ↔
      ∀ e ∈ use.expansions, (a.answers session (jobUseParameters s e declared)).1 = [] := by
  have heach (u : JobUse) : (a.answers session (jobUseParameters s u declared)).1 = [] ↔
      Each (fun notice => (a.answer session notice).1 = []) (jobUseParameters s u declared) :=
    answers_eq_nil_iff_of_leaves hlinter needsLinterAtMost_jobUseParameters .nothing
  simp only [heach]
  exact each_jobUseParameters_iff (fun d => List.cons_ne_nil d []) h

end steady

def wordAndSteps : Parameters := NameMap.ofList
  [("os", { name := "os", type := .enum none ["linux", "macos"] {} }), ("after", { name := "after", type := .steps [] })]

/-- A job with a matrix of two words, and of two lists of steps. -/
def twoByTwo : JobUse where
  jobName := "build"
  stepName := "build"
  hasMatrix := true
  matrix :=
    [⟨"os", .list [⟨"", .text "linux", {}, {}⟩, ⟨"", .text "macos", {}, {}⟩], {}, {}⟩,
      ⟨"after", .list [⟨"", .steps [.run { command := "ls" }], {}, {}⟩, ⟨"", .steps [], {}, {}⟩], {}, {}⟩]

private theorem hasListMatrix_twoByTwo : twoByTwo.HasListMatrix where
  listed := by simp [twoByTwo]
  unassigned := by simp [twoByTwo, Assignments.contains]
  distinct := by simp [twoByTwo]

/-- Nothing is found in a matrix of two by two, and in none of the four expansions. -/
theorem answers_twoByTwo :
    let a : Analyzer := { Analyzer.standard with settings := { lintsScripts := true } }
    let s : Check.Scope := { settings := a.settings, caches := {}, failures := ∅, document := default }
    (s.settings.lintsScripts = true → a.linter.IsSteady {}) ∧ twoByTwo.HasListMatrix ∧
      twoByTwo.expansions.map (·.parameters.length) = [2, 2, 2, 2] ∧
      (a.answers {} (jobUseParameters s twoByTwo wordAndSteps)).1 = [] ∧
      ∀ e ∈ twoByTwo.expansions, (a.answers {} (jobUseParameters s e wordAndSteps)).1 = [] := by
  intro a s
  have hlinter : s.settings.lintsScripts = true → a.linter.IsSteady {} := fun _ _ _ _ => rfl
  have hnil : (a.answers {} (jobUseParameters s twoByTwo wordAndSteps)).1 = [] := by decide +kernel
  exact ⟨hlinter, hasListMatrix_twoByTwo, by decide +kernel, hnil,
    (answers_jobUseParameters_eq_nil_iff hlinter wordAndSteps hasListMatrix_twoByTwo).mp hnil⟩

end Analyzer

end PipelineLint
