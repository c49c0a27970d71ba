import PipelineLint.Model.Entity
import PipelineLint.Proofs.Diagnostic.Fits
import PipelineLint.Proofs.Document.CallSites
import PipelineLint.Proofs.Yaml.Lies

/-! # Steps that are read fit their text

Each place in a step or in a value is that of a node that the view reaches, or one beside it on its line. So what is
read fits where the view does, and so does what is found on the way. The functions that read steps call each other with
less fuel, so by induction on the fuel this holds for all of them (`stepsFit`).

An entity fits a text if all its places fit that a finding can point at. The place of a resource class need not fit
where none is given: then it is not pointed at.
-/

namespace PipelineLint

section

/-- What is not given has every property. -/
theorem forall_mem_none {α : Type} (P : α → Prop) : ∀ a ∈ (none : Option α), P a := nofun

structure Run.Fits (last : Nat) (r : Run) : Prop where
  range : r.range.Fits last
  condition : ∀ c ∈ r.condition, c.Fits last
  maxAutoReruns : ∀ c ∈ r.maxAutoReruns, c.Fits last
  autoRerunDelay : ∀ c ∈ r.autoRerunDelay, c.Fits last

mutual
def Step.Fits (last : Nat) : Step → Prop
  | .named ⟨_, range, parameters, _⟩ => range.Fits last ∧ Assignment.AllFit last parameters
  | .run r => r.Fits last
  | .steps _ _ _ valueRange => valueRange.Fits last
  | _ => True
def Step.AllFit (last : Nat) : List Step → Prop
  | [] => True
  | st :: sts => st.Fits last ∧ Step.AllFit last sts
def Assignment.Fits (last : Nat) : Assignment → Prop
  | ⟨_, value, valueRange, range⟩ => value.Fits last ∧ valueRange.Fits last ∧ range.Fits last
def Assignment.AllFit (last : Nat) : List Assignment → Prop
  | [] => True
  | a :: as => a.Fits last ∧ Assignment.AllFit last as
def Value.Fits (last : Nat) : Value → Prop
  | .list items => Assignment.AllFit last items
  | .map entries => Assignment.AllFit last entries
  | .steps sts => Step.AllFit last sts
  | _ => True
end

variable {last : Nat}

theorem Step.allFit_nil : AllFit last [] := trivial

theorem Step.allFit_iff {sts : List Step} : AllFit last sts ↔ ∀ st ∈ sts, st.Fits last := by
  induction sts with
  | nil => simp [AllFit]
  | cons st sts ih => rw [AllFit, ih, List.forall_mem_cons]

theorem Assignment.allFit_iff {as : List Assignment} : AllFit last as ↔ ∀ a ∈ as, a.Fits last := by
  induction as with
  | nil => simp [AllFit]
  | cons a as ih => rw [AllFit, ih, List.forall_mem_cons]

theorem Assignment.fits_iff {a : Assignment} :
    a.Fits last ↔ a.value.Fits last ∧ a.valueRange.Fits last ∧ a.range.Fits last := by
  cases a
  rw [Fits]

theorem Step.allFit_flatten {parts : List (List Step)} (h : ∀ sts ∈ parts, AllFit last sts) :
    AllFit last parts.flatten := by
  simp only [allFit_iff, List.mem_flatten] at h ⊢
  rintro st ⟨sts, hsts, hst⟩
  exact h sts hsts st hst

theorem Step.allFit_singleton {st : Step} (h : st.Fits last) : AllFit last [st] :=
  allFit_iff.mpr (List.forall_mem_singleton.mpr h)

theorem Assignment.AllFit.insert {as : Assignments} {a : Assignment} (has : AllFit last as) (ha : a.Fits last) :
    AllFit last (as.insert a) := by
  induction as with
  | nil => exact ⟨ha, trivial⟩
  | cons b as ih =>
    rw [Assignments.insert]
    split
    · exact ⟨ha, has.2⟩
    · exact ⟨has.1, ih has.2⟩

def ExecutorKind.Fits (last : Nat) : ExecutorKind → Prop
  | .docker images => ∀ spec ∈ images, spec.imageRange.Fits last
  | .machine m => m.range.Fits last ∧ m.imageRange.Fits last
  | .macos _ xcodeRange => xcodeRange.Fits last
  | .windows _ imageRange => imageRange.Fits last
  | .incomplete => True

structure Executor.Fits (last : Nat) (e : Executor) : Prop where
  nameRange : e.nameRange.Fits last
  range : e.range.Fits last
  resourceClass : e.resourceClass = "" ∨ e.resourceClassRange.Fits last
  kind : e.kind.Fits last

theorem Executor.fits_default : Fits last {} :=
  ⟨Range.fits_nowhere, Range.fits_nowhere, .inl rfl, trivial⟩

structure ExecutorUse.Fits (last : Nat) (use : ExecutorUse) : Prop where
  nameRange : use.nameRange.Fits last
  range : use.range.Fits last
  parameters : Assignment.AllFit last use.parameters

structure Command.Fits (last : Nat) (c : Command) : Prop where
  nameRange : c.nameRange.Fits last
  steps : Step.AllFit last c.steps

structure Retention.Fits (last : Nat) (r : Retention) : Prop where
  range : r.range.Fits last
  caches : ∀ c ∈ r.caches, c.Fits last

structure Job.Fits (last : Nat) (j : Job) : Prop where
  nameRange : j.nameRange.Fits last
  range : j.range.Fits last
  type : ∀ t ∈ j.type, t.Fits last
  parallelismRange : j.parallelismRange.Fits last
  steps : Step.AllFit last j.steps
  stepsRange : j.stepsRange.Fits last
  executor : ∀ use ∈ j.executor, use.Fits last
  inlineExecutor : ∀ e ∈ j.inlineExecutor, e.Fits last
  retention : ∀ r ∈ j.retention, r.Fits last

structure Requirement.Fits (last : Nat) (r : Requirement) : Prop where
  name : r.name.Fits last
  statuses : ∀ status ∈ r.statuses, status.Fits last
  statusRange : r.statusRange.Fits last

structure JobUse.Fits (last : Nat) (use : JobUse) : Prop where
  jobNameRange : use.jobNameRange.Fits last
  requires : ∀ r ∈ use.requires, r.Fits last
  contexts : ∀ c ∈ use.contexts, c.Fits last
  type : ∀ t ∈ use.type, t.Fits last
  parameters : Assignment.AllFit last use.parameters
  preSteps : Step.AllFit last use.preSteps
  postSteps : Step.AllFit last use.postSteps
  matrix : Assignment.AllFit last use.matrix
  maxAutoReruns : ∀ c ∈ use.maxAutoReruns, c.Fits last

structure Workflow.Fits (last : Nat) (w : Workflow) : Prop where
  nameRange : w.nameRange.Fits last
  jobs : ∀ use ∈ w.jobs, use.Fits last

structure OrbUse.Fits (last : Nat) (use : OrbUse) : Prop where
  nameRange : use.nameRange.Fits last
  range : use.range.Fits last
  versionRange : use.versionRange.Fits last
  valueRange : use.valueRange.Fits last

end

namespace Read

open Yaml Yaml.View Reads

/-- If reading has a result, it has a property, and what is found fits. -/
abbrev YieldsIn {α : Type} (last : Nat) (P : α → Prop) (x : Reads α) : Prop := Yields (Diagnostic.Fits last) P x

variable {v : View} {n : Node} {p : Pair} {i : Item} {last : Nat}

private theorem fits_runField {r : Run} (hr : r.Fits last) (hp : v.PairFits last p) : (runField v r p).Fits last := by
  rw [runField]
  split
  · exact hr
  · next value hvalue =>
    have hlocated := (hp.value value hvalue).located
    dsimp only
    split
    case h_7 => exact { hr with condition := by rintro _ ⟨⟩; exact hlocated }
    case h_8 => exact { hr with maxAutoReruns := by rintro _ ⟨⟩; exact hlocated }
    case h_9 => exact { hr with autoRerunDelay := by rintro _ ⟨⟩; exact hlocated }
    all_goals exact { hr with }

private theorem fits_run (isDeploy : Bool) (hp : v.PairFits last p) (hn : v.FitsFrom last n) :
    (run v p n isDeploy).Fits last := by
  have hbare : Run.Fits last { range := p.keyRange, isDeploy } :=
    ⟨hp.keyRange, forall_mem_none _, forall_mem_none _, forall_mem_none _⟩
  rw [run]
  split
  · exact { hbare with }
  · next mapping hmapping =>
    exact List.foldlRecOn (motive := Run.Fits last) _ _ hbare fun r hr q hq =>
      fits_runField hr ((hn.mapping hmapping).pairs q hq)

private theorem fits_builtIn? {key : String} {st : Step} (hn : v.FitsFrom last n) (hst : builtIn? v key p n = some st) :
    st.Fits last := by
  unfold builtIn? at hst
  split at hst
  case h_10 =>
    cases hst
    exact hn.range
  case h_11 => cases hst
  all_goals
    cases hst
    trivial

theorem fits_scalarValue? {value : Value} (hvalue : scalarValue? v n = some value) : value.Fits last := by
  obtain rfl | ⟨_, rfl⟩ | ⟨_, rfl, -⟩ := scalarValue?_cases hvalue
  all_goals trivial

private theorem fits_withAlias {raw : Node} {value : Value} (hvalue : value.Fits last) :
    (withAlias v raw value).Fits last := by
  rw [withAlias.eq_def]
  split
  · exact hvalue
  · exact hvalue
  · trivial
  · exact hvalue

private theorem allFit_insertAll {read : List (Option Assignment)} (hread : ∀ found ∈ read, ∀ a ∈ found, a.Fits last)
    {as : Assignments} (has : Assignment.AllFit last as) : Assignment.AllFit last (as.insertAll read) := by
  induction read generalizing as with
  | nil => exact has
  | cons found read ih =>
    obtain ⟨hfound, hrest⟩ := List.forall_mem_cons.mp hread
    cases found with
    | none => exact ih hrest has
    | some a => exact ih hrest (has.insert (hfound a rfl))

/-- What is read with some fuel fits, and so does what is found. -/
structure StepsFit (v : View) (last fuel : Nat) : Prop where
  steps : ∀ {n}, v.FitsFrom last n → YieldsIn last (Step.AllFit last) (steps v fuel n)
  step : ∀ {i}, v.ItemFits last i → YieldsIn last (Step.AllFit last) (step v fuel i)
  conditional : ∀ {n}, v.FitsFrom last n → YieldsIn last (Step.AllFit last) (conditional v fuel n)
  invocation : ∀ {n p} name, v.PairFits last p → v.FitsFrom last n →
    YieldsIn last (fun call => Step.Fits last (.named call)) (invocation v fuel name p n)
  assignments : ∀ {ps}, (∀ p ∈ ps, v.PairFits last p) → YieldsIn last (Assignment.AllFit last) (assignments v fuel ps)
  assignment : ∀ {p}, v.PairFits last p → YieldsIn last (fun found => ∀ a ∈ found, a.Fits last) (assignment v fuel p)
  listItems : ∀ {n} name, v.FitsFrom last n → YieldsIn last (Assignment.AllFit last) (listItems v fuel name n)

namespace StepsFit

variable {fuel : Nat}

private theorem zero : StepsFit v last 0 where
  steps _ := yields_endless
  step _ := yields_endless
  conditional _ := yields_endless
  invocation _ _ _ := yields_endless
  assignments _ := yields_endless
  assignment _ := yields_endless
  listItems _ _ := yields_endless

variable (h : StepsFit v last fuel)
include h

theorem steps_succ (hn : v.FitsFrom last n) : YieldsIn last (Step.AllFit last) (Read.steps v (fuel + 1) n) := by
  rw [Read.steps]
  refine (yields_each fun i hi => h.step (hn.items i hi)).bind fun parts hparts => ?_
  exact yields_pure (Step.allFit_flatten hparts)

theorem conditional_succ (hn : v.FitsFrom last n) :
    YieldsIn last (Step.AllFit last) (Read.conditional v (fuel + 1) n) := by
  rw [Read.conditional]
  refine (yields_each (P := Step.AllFit last) fun p hp => ?_).bind fun parts hparts => ?_
  · split
    · next value hvalue =>
      split
      · exact h.steps ((hn.pairs p hp).value value hvalue)
      · exact yields_pure trivial
    · exact yields_pure trivial
  · exact yields_pure (Step.allFit_flatten hparts)

theorem assignments_succ {ps : List Pair} (hps : ∀ p ∈ ps, v.PairFits last p) :
    YieldsIn last (Assignment.AllFit last) (Read.assignments v (fuel + 1) ps) := by
  rw [Read.assignments]
  refine (yields_each fun p hp => h.assignment (hps p hp)).bind fun read hread => ?_
  exact yields_pure (allFit_insertAll hread trivial)

theorem listItems_succ (name : String) (hn : v.FitsFrom last n) :
    YieldsIn last (Assignment.AllFit last) (Read.listItems v (fuel + 1) name n) := by
  rw [Read.listItems]
  refine (yields_each (P := fun found => ∀ a ∈ found, a.Fits last) fun i hi => ?_).bind fun read hread => ?_
  · have hrange := (hn.items i hi).range
    split
    · refine (h.step (hn.items i hi)).bind fun inner hinner => yields_pure ?_
      rintro _ ⟨⟩
      exact ⟨hinner, hrange, hrange⟩
    · refine yields_pure fun a ha => ?_
      obtain ⟨value, hvalue, rfl⟩ := Option.map_eq_some_iff.mp ha
      obtain ⟨scalar, -, hvalue⟩ := Option.bind_eq_some_iff.mp hvalue
      exact ⟨fits_scalarValue? hvalue, hrange, hrange⟩
  · refine yields_pure (Assignment.allFit_iff.mpr fun a ha => ?_)
    obtain ⟨found, hfound, hsome⟩ := List.mem_filterMap.mp ha
    exact hread found hfound a hsome

theorem assignment_succ (hp : v.PairFits last p) :
    YieldsIn last (fun found => ∀ a ∈ found, a.Fits last) (Read.assignment v (fuel + 1) p) := by
  rw [Read.assignment.eq_def]
  dsimp only
  split
  · exact yields_pure (forall_mem_none _)
  · next key hkey _ =>
    exact (yields_note (Diagnostic.fits_warning (hp.key key hkey))).bind fun _ _ => yields_pure (forall_mem_none _)
  · next key raw hkey hraw =>
    have hfrom := hp.rawValue raw hraw
    have hvalue {read : Reads (Option Value)} (hread : YieldsIn last (fun found => ∀ value ∈ found, value.Fits last) read) :
        YieldsIn last (fun found => ∀ a ∈ found, a.Fits last) (read >>= fun found =>
          pure (found.map fun value => Assignment.mk (v.text key) (withAlias v raw value) raw.range p.range)) := by
      refine hread.bind fun found hfound => yields_pure fun (a : Assignment) ha => ?_
      obtain ⟨value, hvalue, rfl⟩ := Option.map_eq_some_iff.mp ha
      exact ⟨fits_withAlias (hfound value hvalue), hfrom.range, hp.range⟩
    split
    · exact hvalue (yields_pure (forall_mem_none _))
    · next content hcontent =>
      split
      · refine (h.listItems _ hfrom).bind fun items hitems => hvalue (yields_pure ?_)
        rintro _ ⟨⟩
        exact hitems
      split
      · have hpairs := (hfrom.later (reaches_content? hcontent)).pairs
        refine (h.assignments fun q hq => hpairs q (List.mem_filter.mp hq).1).bind fun entries hentries =>
          hvalue (yields_pure ?_)
        rintro _ ⟨⟩
        exact hentries
      split
      · exact hvalue (yields_pure fun value hvalue => fits_scalarValue? hvalue)
      · exact hvalue (yields_pure (forall_mem_none _))

theorem invocation_succ (name : String) (hp : v.PairFits last p) (hn : v.FitsFrom last n) :
    YieldsIn last (fun call => Step.Fits last (.named call)) (Read.invocation v (fuel + 1) name p n) := by
  rw [Read.invocation]
  split
  · exact yields_pure ⟨hp.keyRange, trivial⟩
  · next mapping hmapping =>
    have hpairs := (hn.mapping hmapping).pairs
    refine (h.assignments fun q hq => hpairs q (List.mem_filter.mp hq).1).bind fun given hgiven => ?_
    exact yields_pure ⟨hp.keyRange, hgiven⟩

theorem step_succ (hi : v.ItemFits last i) : YieldsIn last (Step.AllFit last) (Read.step v (fuel + 1) i) := by
  have hone {st : Step} (hst : st.Fits last) : YieldsIn last (Step.AllFit last) (pure [st]) :=
    yields_pure (Step.allFit_singleton hst)
  rw [Read.step]
  split
  · exact hone ⟨hi.markerRange, trivial⟩
  · next value hvalue =>
    have hfrom := hi.value value hvalue
    split
    · split
      · exact hone ⟨hfrom.range, trivial⟩
      · exact hone ⟨hfrom.range, forall_mem_none _, forall_mem_none _, forall_mem_none _⟩
    · next mapping hmapping =>
      split
      · exact yields_pure trivial
      · next p hfirst =>
        have hp := (hfrom.mapping hmapping).pairs p (List.mem_of_head? hfirst)
        split
        · exact yields_pure trivial
        · next inner hinner =>
          have hinner := hp.value inner hinner
          dsimp only
          split
          · exact hone (fits_run false hp hinner)
          split
          · exact hone (fits_run true hp hinner)
          split
          · exact h.conditional hinner
          split
          · next st hst => exact hone (fits_builtIn? hinner hst)
          · exact (h.invocation _ hp hinner).bind fun call hcall => hone hcall

private theorem succ : StepsFit v last (fuel + 1) where
  steps := h.steps_succ
  step := h.step_succ
  conditional := h.conditional_succ
  invocation := h.invocation_succ
  assignments := h.assignments_succ
  assignment := h.assignment_succ
  listItems := h.listItems_succ

end StepsFit

theorem stepsFit (v : View) (last fuel : Nat) : StepsFit v last fuel := by
  induction fuel with
  | zero => exact .zero
  | succ fuel ih => exact ih.succ

theorem yieldsIn_readSteps (hn : v.FitsFrom last n) : YieldsIn last (Step.AllFit last) (readSteps v n) :=
  (stepsFit v last _).steps hn

theorem yieldsIn_readStep (hi : v.ItemFits last i) : YieldsIn last (Step.AllFit last) (readStep v i) :=
  (stepsFit v last _).step hi

theorem yieldsIn_readAssignment (hp : v.PairFits last p) :
    YieldsIn last (fun found => ∀ a ∈ found, a.Fits last) (readAssignment v p) := (stepsFit v last _).assignment hp

theorem yieldsIn_readAssignments (hn : v.FitsFrom last n) :
    YieldsIn last (Assignment.AllFit last) (readAssignments v n) := (stepsFit v last _).assignments hn.pairs

end Read

end PipelineLint
