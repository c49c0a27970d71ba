import PipelineLint.Proofs.Check.References
import PipelineLint.Proofs.Document.Fits

/-! # Findings fit where they are found

What a check finds is placed where the document says that something is written, or is found by reading the text again.
So all that is found in a document fits the text that it was read from (`fits_document`). The one place that an executor
need not have, that of its resource class, is not pointed at where the class is not given: every family of machines that
a class is looked up in has one without a name.
-/

namespace PipelineLint

open Text Yaml

private theorem Text.length_lines_le (cs : List Char) : (lines cs).length ≤ lastLine cs + 1 := by
  have hsplit : (splitOn (· == '\n') cs).length = lastLine cs + 1 := by
    induction cs with
    | nil => rfl
    | cons c cs ih =>
      rw [splitOn, lastLine, List.count_cons]
      split
      · rw [List.length_cons, ih, lastLine]
      · rw [Nat.add_zero, ← lastLine, ← ih]
        split
        · next hnone =>
          rw [hnone] at ih
          exact absurd ih (Nat.succ_ne_zero _).symm
        · next hsome => rw [hsome, List.length_cons, List.length_cons]
  have hreverse := hsplit
  rw [← List.length_reverse] at hreverse
  rw [lines]
  split
  · exact Nat.zero_le _
  · next hbefore =>
    rw [hbefore] at hreverse
    simp at hreverse ⊢
    omega
  · next hbefore =>
    rw [hbefore] at hreverse
    simp at hreverse ⊢
    omega

theorem Executor.Fits.classRange {last : Nat} {e : Executor} (h : e.Fits last) (hclass : e.resourceClass ≠ "") :
    e.resourceClassRange.Fits last := h.resourceClass.resolve_left hclass

namespace Check

/-- What a notice leads to fits a text whose last line has a number. What is found in a script can lie anywhere. -/
def Notice.Fits (last : Nat) : Notice → Prop
  | .finding d => d.Fits last
  | .image spec => spec.imageRange.Fits last
  | .script _ => False

variable {last : Nat} {s : Scope} {usable declared : Parameters} {p : Parameter} {entity : String} {range : Range}

@[simp] theorem Notice.fits_finding {d : Diagnostic} : (Notice.finding d).Fits last ↔ d.Fits last := Iff.rfl

@[simp] theorem Notice.fits_image {spec : ImageSpec} :
    (Notice.image spec).Fits last ↔ spec.imageRange.Fits last := Iff.rfl

abbrev AllFit (last : Nat) (ds : List Diagnostic) : Prop := Each (Diagnostic.Fits last) ds

abbrev AllLeadIn (last : Nat) (ns : List Notice) : Prop := Each (Notice.Fits last) ns

@[simp] theorem allLeadIn_map_finding {ds : List Diagnostic} : AllLeadIn last (ds.map .finding) ↔ AllFit last ds :=
  each_map

private theorem fits_conditionText {text : String} (hrange : range.Fits last) :
    AllFit last (conditionText range text) := by
  simp [conditionText, hrange]

private theorem fits_condition {c : Located} (hc : c.Fits last) : AllFit last (condition s usable c) := by
  have hrange : c.range.Fits last := hc
  unfold condition
  repeat' split
  all_goals simp [fits_conditionText, hrange]

private theorem fits_reruns {r : Run} (hr : r.Fits last) : AllFit last (reruns r) := by
  have hcount : ∀ count ∈ r.maxAutoReruns, count.range.Fits last := hr.maxAutoReruns
  have hdelay : ∀ delay ∈ r.autoRerunDelay, delay.range.Fits last := hr.autoRerunDelay
  unfold reruns
  cases hreruns : r.maxAutoReruns <;> cases hdelayed : r.autoRerunDelay <;> simp_all

/-- Without a shell linter what is said about a run step fits. -/
theorem fits_run {r : Run} (hscripts : s.settings.lintsScripts = false) (hr : r.Fits last) :
    AllLeadIn last (run s usable r) := by
  have hcondition : ∀ c ∈ r.condition, AllFit last (condition s usable c) := fun c hc => fits_condition (hr.condition c hc)
  unfold run
  cases hc : r.condition <;> simp_all [fits_reruns hr, hr.range]

theorem fits_missing {isAssigned : String → Bool} (hrange : range.Fits last) :
    AllFit last (missing declared entity range isAssigned) := by
  simp [missing, each_map, hrange]

theorem fits_typeMismatch (hrange : range.Fits last) : (typeMismatch p entity range).Fits last :=
  Diagnostic.fits_error hrange

private theorem fits_executorName {name : String} (hrange : range.Fits last) :
    AllFit last (executorName s name range) := by
  simp [executorName, hrange]

private theorem fits_executorValue {v : Value} (hrange : range.Fits last) (hv : v.Fits last) :
    AllFit last (executorValue s p entity range v) := by
  unfold executorValue
  split
  · exact fits_executorName hrange
  · next fields =>
    rw [Value.Fits, Assignment.allFit_iff] at hv
    split
    · next hname => exact fits_executorName (Assignment.fits_iff.mp (hv _ (List.mem_of_find?_eq_some hname))).2.1
    · exact each_nil
    · simp [hrange]
  · simp [fits_typeMismatch hrange]

private theorem fits_plainValue {v : Value} (hrange : range.Fits last) (hv : v.Fits last) :
    AllFit last (plainValue s p entity range v) := by
  have hmismatch : (typeMismatch p entity range).Fits last := fits_typeMismatch hrange
  unfold plainValue
  cases p.type with
  | executor => exact fits_executorValue hrange hv
  | steps => exact each_nil
  | enum =>
    dsimp only
    cases v.asText? <;> simp [hrange, hmismatch]
  | _ => cases v <;> simp [hmismatch]

private theorem fits_referenceValue {text : String} (hrange : range.Fits last) :
    AllFit last (referenceValue s usable p entity range text) := by
  unfold referenceValue
  split <;> simp [fits_typeMismatch hrange]

private theorem fits_stepName {name : String} (hrange : range.Fits last) : AllFit last (stepName s name range) := by
  simp [stepName, hrange]

private theorem fits_stepsPlace {value : String} (hrange : range.Fits last) :
    AllFit last (stepsPlace s usable value range) := by
  unfold stepsPlace
  repeat' split
  all_goals simp [hrange]

-- The recursion is that of the checks: over steps, the values they assign, and the steps inside these.
mutual
theorem fits_step (hscripts : s.settings.lintsScripts = false) :
    (st : Step) → st.Fits last → AllLeadIn last (step s usable st)
  | .run r, h => by
    rw [step]
    exact fits_run hscripts h
  | .steps _ _ value valueRange, h => by
    rw [step, allLeadIn_map_finding]
    exact fits_stepsPlace h
  | .named ⟨name, range, parameters, _⟩, h => by
    rw [Step.Fits] at h
    obtain ⟨hrange, hparameters⟩ := h
    rw [step]
    split
    · exact each_nil
    split
    · simp [hrange]
    split
    · simp [hrange]
    split
    · exact each_nil
    split
    · exact each_nil
    · next declared _ => simp [fits_missing hrange, fits_values hscripts name declared parameters hparameters]
  | .checkout .., _ | .setupRemoteDocker .., _ | .saveCache .., _ | .restoreCache .., _ | .storeArtifacts .., _
  | .storeTestResults .., _ | .persistToWorkspace .., _ | .attachWorkspace .., _ | .addSshKeys .., _ => by simp [step]
theorem fits_steps (hscripts : s.settings.lintsScripts = false) :
    (sts : List Step) → Step.AllFit last sts → AllLeadIn last (steps s usable sts)
  | [], _ => by simp [steps]
  | st :: sts, h => by
    rw [steps]
    exact each_append.mpr ⟨fits_step hscripts st h.1, fits_steps hscripts sts h.2⟩
theorem fits_values (hscripts : s.settings.lintsScripts = false) (entity : String)
    (declared : Parameters) :
    (as : List Assignment) → Assignment.AllFit last as → AllLeadIn last (values s usable entity declared as)
  | [], _ => by simp [values]
  | ⟨name, v, valueRange, range⟩ :: as, h => by
    obtain ⟨⟨hv, hvalueRange, hrange⟩, has⟩ := h
    rw [values]
    refine each_append.mpr ⟨?_, fits_values hscripts entity declared as has⟩
    split
    · exact fits_value hscripts _ entity valueRange v hvalueRange hv
    · simp [undeclared, hrange]
private theorem fits_value (hscripts : s.settings.lintsScripts = false) (p : Parameter) (entity : String)
    (range : Range) :
    (v : Value) → range.Fits last → v.Fits last → AllLeadIn last (value s usable p entity range v)
  | .text text, hrange, hv => by
    rw [value]
    split
    · simp [fits_referenceValue hrange]
    split
    · exact each_nil
    split
    · simp [fits_typeMismatch hrange]
    · simp [fits_plainValue hrange hv]
  | .alias _, _, _ => by simp [value]
  | .steps given, hrange, hv => by
    rw [value]
    split
    · exact fits_steps hscripts given hv
    · simp [fits_plainValue hrange hv]
  | .list items, hrange, hv => by
    rw [value]
    split
    · exact fits_stepItems hscripts items hv
    · simp [fits_plainValue hrange hv]
  | .truth _, hrange, hv | .number _, hrange, hv | .map _, hrange, hv => by
    rw [value]
    · split
      · simp [fits_typeMismatch hrange]
      · simp [fits_plainValue hrange hv]
    all_goals nofun
theorem fits_stepItems (hscripts : s.settings.lintsScripts = false) :
    (as : List Assignment) → Assignment.AllFit last as → AllLeadIn last (stepItems s usable as)
  | [], _ => by simp [stepItems]
  | ⟨_, v, valueRange, _⟩ :: as, h => by
    obtain ⟨⟨hv, hvalueRange, -⟩, has⟩ := h
    rw [stepItems]
    exact each_append.mpr ⟨fits_stepItem hscripts valueRange v hvalueRange hv, fits_stepItems hscripts as has⟩
theorem fits_stepItem (hscripts : s.settings.lintsScripts = false) (range : Range) :
    (v : Value) → range.Fits last → v.Fits last → AllLeadIn last (stepItem s usable range v)
  | .steps given, _, hv => by
    rw [stepItem]
    exact fits_steps hscripts given hv
  | .text name, hrange, _ => by
    rw [stepItem, allLeadIn_map_finding]
    exact fits_stepName hrange
  | .truth _, _, _ | .number _, _, _ | .list _, _, _ | .map _, _, _ | .alias _, _, _ => by simp [stepItem]
end

private theorem fits_call {given : Assignments} (hscripts : s.settings.lintsScripts = false)
    (hrange : range.Fits last) (hgiven : Assignment.AllFit last given) :
    AllLeadIn last (call s usable entity range declared given) := by
  simp [call, fits_missing hrange, fits_values hscripts entity declared given hgiven]

private theorem fits_matrixValue {a : Assignment} (hscripts : s.settings.lintsScripts = false)
    (ha : a.Fits last) : AllLeadIn last (matrixValue s entity declared a) := by
  obtain ⟨hvalue, hvalueRange, hrange⟩ := Assignment.fits_iff.mp ha
  unfold matrixValue
  split
  · simp [undeclared, hrange]
  split
  · next items hitems =>
    rw [hitems, Value.Fits, Assignment.allFit_iff] at hvalue
    refine each_flatMap.mpr fun item hitem => ?_
    obtain ⟨hv, hvalueRange, -⟩ := Assignment.fits_iff.mp (hvalue item hitem)
    exact fits_value hscripts _ _ _ _ hvalueRange hv
  · exact each_nil
  · simp [hvalueRange]

private theorem fits_statuses {located : List Located} (h : ∀ status ∈ located, status.Fits last) (seen : List String) :
    AllFit last (statuses seen located) := by
  induction located generalizing seen with
  | nil => simp [statuses]
  | cons status rest ih =>
    obtain ⟨hstatus, hrest⟩ := List.forall_mem_cons.mp h
    have hrange : status.range.Fits last := hstatus
    simp [statuses, hrange, ih hrest]

private theorem fits_requirement {w : Workflow} {r : Requirement} (hr : r.Fits last) :
    AllFit last (requirement w r) := by
  have hname : r.name.range.Fits last := hr.name
  simp [requirement, hname, fits_statuses hr.statuses, hr.statusRange]

private theorem fits_jobReruns {count : Located} (hcount : count.Fits last) : AllFit last (jobReruns count) := by
  have hrange : count.range.Fits last := hcount
  simp [jobReruns, hrange]

private theorem fits_context {c : Located} (hc : c.Fits last) : AllFit last (context s c) := by
  have hrange : c.range.Fits last := hc
  simp [context, hrange]

private theorem fits_jobName {use : JobUse} (hscripts : s.settings.lintsScripts = false) (huse : use.Fits last) :
    AllLeadIn last (jobName s use) := by
  unfold jobName
  split
  · split
    · next declared _ =>
      simp only [jobUseParameters, each_append, allLeadIn_map_finding, each_flatMap]
      exact ⟨⟨fits_missing huse.jobNameRange, fits_values hscripts _ declared _ huse.parameters⟩,
        fun a ha => fits_matrixValue hscripts (Assignment.allFit_iff.mp huse.matrix a ha)⟩
    · exact each_nil
  · simp [huse.jobNameRange]

private theorem fits_jobUse {w : Workflow} {use : JobUse} (hscripts : s.settings.lintsScripts = false)
    (huse : use.Fits last) :
    AllLeadIn last (jobUse s w use) := by
  have htype : ∀ type ∈ use.type, type.range.Fits last := huse.type
  have hrequires : ∀ r ∈ use.requires, AllFit last (requirement w r) := fun r hr => fits_requirement (huse.requires r hr)
  have hreruns : ∀ count ∈ use.maxAutoReruns, AllFit last (jobReruns count) :=
    fun count hcount => fits_jobReruns (huse.maxAutoReruns count hcount)
  have hcontexts : ∀ c ∈ use.contexts, AllFit last (context s c) := fun c hc => fits_context (huse.contexts c hc)
  have hsteps : ∀ sts, Step.AllFit last sts → AllLeadIn last (steps s ∅ sts) := fun sts => fits_steps hscripts sts
  have hname := fits_jobName hscripts huse
  unfold jobUse
  split
  · exact each_nil
  split
  · exact each_nil
  · simp only [each_append, allLeadIn_map_finding, each_flatMap, Option.mem_toList]
    refine ⟨⟨⟨⟨⟨?_, hname⟩, hrequires⟩, hreruns, hcontexts⟩, hsteps _ huse.preSteps⟩, hsteps _ huse.postSteps⟩
    split
    · next type hsome => simp [htype type hsome]
    · exact each_nil

theorem fits_resourceClass {e : Executor} {valid : List String} {context : String} (he : e.Fits last)
    (hvalid : "" ∈ valid) : AllFit last (resourceClass e valid context) := by
  unfold resourceClass
  split
  · exact each_nil
  · next hclass =>
    simp only [Bool.or_eq_true, not_or, List.contains_iff_mem] at hclass
    have hgiven : e.resourceClass ≠ "" := fun hempty => hclass.2 (hempty ▸ hvalid)
    simp [he.classRange hgiven]

private theorem fits_macosExecutor {e : Executor} {xcode : String} (he : e.Fits last) (hrange : range.Fits last) :
    AllFit last (macosExecutor e xcode range) := by
  unfold macosExecutor
  repeat' split
  · exact each_nil
  · exact fits_resourceClass he (by decide)
  · exact fits_resourceClass he (by decide)
  · simp [hrange]

private theorem fits_imageOfOtherClass {e : Executor} {m : Machine} (he : e.Fits last) :
    (imageOfOtherClass e m).Fits last := by
  unfold imageOfOtherClass
  dsimp only
  split <;> simp [he.range]

private theorem fits_machineExecutor {e : Executor} {m : Machine} (he : e.Fits last) (hm : m.range.Fits last)
    (himage : m.imageRange.Fits last) : AllFit last (machineExecutor s e m) := by
  have hunknown (hclass : e.resourceClass ≠ "") : (unknownResourceClass e).Fits last :=
    Diagnostic.fits_error (he.classRange hclass)
  -- A class that is not given fits the machines with Linux.
  have hfits (hclass : e.resourceClass = "") : Catalog.MachineFamily.all.any (fitsClass e) = true := by
    rw [List.any_eq_true]
    refine ⟨.linux, by decide, ?_⟩
    rw [fitsClass, hclass]
    decide
  unfold machineExecutor
  split
  · simp [hm]
  split
  · split
    · exact each_nil
    · next hclass =>
      simp only [Bool.or_eq_true, not_or, String.isEmpty_iff] at hclass
      simp [hunknown hclass.1.1.1]
  split
  · simp [he.range]
  split
  · exact each_nil
  split
  · simp [fits_imageOfOtherClass he]
  · simp only [each_append, each_ite, each_cons, each_nil]
    refine ⟨⟨fun _ => trivial, fun hclass => ⟨hunknown fun hempty => hclass (hfits hempty), trivial⟩⟩, fun _ => trivial,
      fun _ => ⟨?_, trivial⟩⟩
    exact Diagnostic.fits_error himage

private theorem fits_windowsExecutor {e : Executor} {image : String} (he : e.Fits last) (hrange : range.Fits last) :
    AllFit last (windowsExecutor e image range) := by
  simp [windowsExecutor, fits_resourceClass he, hrange, Catalog.linuxResourceClasses]

private theorem fits_image {spec : ImageSpec} (hspec : spec.imageRange.Fits last) : AllLeadIn last (image s spec) := by
  have hretired : (retiredImage spec).Fits last := by
    unfold retiredImage
    exact ((Diagnostic.fits_warning hspec).withTag _).withAction (List.forall_mem_singleton.mpr hspec)
  simp [image, hretired, hspec]

theorem fits_executor {e : Executor} (he : e.Fits last) : AllLeadIn last (executor s e) := by
  have hkind := he.kind
  unfold executor
  split
  · next images hdocker =>
    rw [hdocker] at hkind
    simp only [each_append, allLeadIn_map_finding, each_flatMap]
    exact ⟨fits_resourceClass he (by decide), fun spec hspec => fits_image (hkind spec hspec)⟩
  · next m hmachine =>
    rw [hmachine] at hkind
    simp [fits_machineExecutor he hkind.1 hkind.2]
  · next hmacos =>
    rw [hmacos] at hkind
    simp [fits_macosExecutor he hkind]
  · next hwindows =>
    rw [hwindows] at hkind
    simp [fits_windowsExecutor he hkind]
  · exact each_nil

theorem fits_unused {severity : Severity} {message : String} (hrange : range.Fits last) :
    (unused severity message range).Fits last := (Diagnostic.fits_bare hrange).withTag _

private theorem fits_jobType {j : Job} (hj : j.Fits last) : AllFit last (jobType j) := by
  unfold jobType
  split
  · exact each_nil
  · next type htype =>
    have hrange : type.range.Fits last := hj.type type htype
    simp [hrange]

private theorem fits_retention {j : Job} (hj : j.Fits last) : AllFit last (retention j) := by
  unfold retention
  split
  · exact each_nil
  · next r hr =>
    have hretention := hj.retention r hr
    have hcaches : ((r.caches.map (·.range)).getD r.range).Fits last := by
      cases hc : r.caches with
      | none => exact hretention.range
      | some caches => exact hretention.caches caches hc
    simp [hcaches]

private theorem fits_executorParameter {j : Job} {use : ExecutorUse} (huse : use.Fits last) :
    AllFit last (executorParameter s j use) := by
  unfold executorParameter
  repeat' split
  all_goals simp [huse.range]

private theorem fits_jobExecutor {j : Job} {use : ExecutorUse} (hscripts : s.settings.lintsScripts = false)
    (huse : use.Fits last) : AllLeadIn last (jobExecutor s j use) := by
  have hcall : ∀ declared, AllLeadIn last (call s j.parameters use.name use.range declared use.parameters) :=
    fun declared => fits_call hscripts huse.range huse.parameters
  unfold jobExecutor foreignExecutor
  repeat' split
  all_goals simp [hcall, fits_executorParameter huse, huse.nameRange]

private theorem fits_job {j : Job} (hscripts : s.settings.lintsScripts = false) (hj : j.Fits last) :
    AllLeadIn last (job s j) := by
  have hname := hj.nameRange
  have hignored : AllFit last (ignoredSteps j) := by simp [ignoredSteps, hj.stepsRange]
  have hunused : AllFit last (unusedJob s j) := by simp [unusedJob, fits_unused hname]
  have huntold : AllFit last (untoldResults j) := by
    unfold untoldResults
    split
    · exact each_singleton.mpr (Diagnostic.fits_bare hname)
    · exact each_nil
  have hparallelism : AllFit last (parallelism j) := by
    unfold parallelism
    split
    · exact each_singleton.mpr ((Diagnostic.fits_bare hj.parallelismRange).withHelp _)
    · exact each_nil
  simp only [job, each_append, allLeadIn_map_finding]
  refine ⟨⟨⟨⟨⟨fits_jobType hj, fits_steps hscripts _ hj.steps⟩, ⟨hignored, hunused⟩, huntold⟩, ?_⟩, hparallelism,
    fits_retention hj⟩, ?_⟩
  · split
    · next use huse => exact fits_jobExecutor hscripts (hj.executor use huse)
    · exact each_nil
  · split
    · next e he => exact fits_executor (hj.inlineExecutor e he)
    · exact each_nil

private theorem fits_unusedCommand {c : Command} (hc : c.nameRange.Fits last) : AllFit last (unusedCommand s c) := by
  unfold unusedCommand
  split <;> simp [fits_unused hc]

private theorem fits_offerVersions {use : OrbUse} {current : String} {d : Diagnostic} (offers : List (String × String))
    (huse : use.versionRange.Fits last) (hd : d.Fits last) : (offerVersions use current offers d).Fits last := by
  have hoffered : ((d, ([] : List String)) : Diagnostic × List String).1.Fits last := hd
  refine List.foldlRecOn (motive := fun found : Diagnostic × List String => found.1.Fits last) _ _ hoffered
    fun found hfound offer _ => ?_
  dsimp only
  split
  · exact hfound.withReplacement huse _ _
  · exact hfound

private theorem fits_orb {use : OrbUse} (huse : use.Fits last) : AllFit last (orb s use) := by
  have hfailure : ∀ failure, (orbFailure use failure).Fits last := by
    intro failure
    cases failure <;> simp [orbFailure, huse.valueRange]
  have hversion : AllFit last (orbVersion s use) := by
    have hupdate : ∀ current newest, AllFit last (orbUpdate use current newest) := by
      intro current newest
      unfold orbUpdate
      split
      · exact each_nil
      · simp [fits_offerVersions, huse.versionRange, huse.range]
    unfold orbVersion
    repeat' split
    all_goals simp [hupdate]
  rw [orb]
  cases s.failures.get? use.name <;> simp [fits_unused huse.nameRange, hfailure, hversion]

private theorem fits_sharedNames {ds : List Definition} (h : ∀ d ∈ ds, d.range.Fits last) :
    AllFit last (sharedNames ds) := by
  induction ds with
  | nil => exact each_nil
  | cons first rest ih =>
    obtain ⟨hfirst, hrest⟩ := List.forall_mem_cons.mp h
    simp only [sharedNames, each_append, each_flatMap]
    refine ⟨fun second hsecond => ?_, ih hrest⟩
    simp [sharedName, hfirst, hrest second (List.mem_of_mem_filter hsecond)]

variable {source : List Char} {t : Tree}

/-- A mention lies in its text. -/
theorem Mention.StandsIn.range_fits (ht : t.LiesInText) {m : Mention} {whole : List Char} (h : m.StandsIn t whole) :
    (m.range t.source).Fits (lastLine t.source) := by
  obtain ⟨before, after, hsource, hstart, hstop, -, -⟩ := h.exists_around ht
  rw [Mention.range_eq_advance hsource hstart hstop]
  have hwhole : lastLine before + lastLine whole ≤ lastLine t.source := by
    rw [hsource, lastLine_append, lastLine_append, ← Nat.add_assoc]
    exact Nat.le_add_right _ _
  refine ⟨?_, ?_, fun _ => ?_⟩
  · rw [line_advance, Nat.zero_add]
    exact (Nat.le_add_right _ _).trans hwhole
  · rw [line_advance, Nat.zero_add, lastLine_append]
    exact hwhole
  · rw [advance_append]
    exact le_advance _ _

private theorem fits_references (ht : t.LiesInText) (hs : s.document.tree = t) :
    AllLeadIn (lastLine t.source) (references s) := by
  rw [references_eq, Document.source, hs]
  refine each_map.mpr fun m hm => ?_
  obtain ⟨whole, hstands⟩ := mem_mentions_iff.mp (List.mem_of_mem_filter hm)
  exact Diagnostic.fits_error (hstands.range_fits ht)

private theorem fits_lineRange? {line : Nat} (hr : lineRange? source line = some range) :
    range.Fits (lastLine source) := by
  cases line with
  | zero => cases hr
  | succ n =>
    obtain ⟨text, htext, rfl⟩ := Option.map_eq_some_iff.mp hr
    obtain ⟨hn, -⟩ := List.getElem?_eq_some_iff.mp htext
    exact Range.fits_ofCoordinates (Nat.le_of_lt_succ (hn.trans_le (length_lines_le source))) (Nat.le_max_right _ _)

private theorem fits_pathRange {d : Document} (path : List String) (h : d.view.FitsFrom last d.tree.top) :
    (d.pathRange path).Fits last := by
  have hgo (path : List String) : ∀ (range : Range) (n : Option Node), range.Fits last →
      (∀ m ∈ n, d.view.FitsFrom last m) → (Document.pathRange.go d range n path).Fits last := by
    induction path with
    | nil =>
      intro range n hrange _
      rw [Document.pathRange.go]
      exact hrange
    | cons part path ih =>
      intro range n hrange hn
      cases n with
      | none =>
        rw [Document.pathRange.go]
        · exact hrange
        · nofun
      | some n =>
        have hfrom := hn n rfl
        rw [Document.pathRange.go]
        split
        · split
          · next item hitem =>
            obtain ⟨i, -, hi⟩ := Option.bind_eq_some_iff.mp hitem
            have hfits := hfrom.items item (List.mem_of_getElem? hi)
            exact ih _ _ hfits.range hfits.value
          · exact hrange
        · split
          · next pair hpair =>
            have hfits := hfrom.pairs pair (List.mem_of_find?_eq_some hpair)
            exact ih _ _ hfits.keyRange hfits.value
          · exact hrange
  refine hgo path _ _ h.range ?_
  rintro _ ⟨⟩
  exact h

private theorem fits_shape {loader : Load.Loader} {schema : Option Schema} (hs : s.document.source = source)
    (htop : s.document.view.FitsFrom (lastLine source) s.document.tree.top) :
    AllLeadIn (lastLine source) (shape loader schema s) := by
  unfold shape
  repeat' split
  · exact each_nil
  · exact each_nil
  · next e _ =>
    refine each_singleton.mpr (Diagnostic.fits_error ?_)
    cases hline : e.line?.bind (lineRange? s.document.source) with
    | none => exact fits_pathRange [] htop
    | some range =>
      obtain ⟨line, -, hrange⟩ := Option.bind_eq_some_iff.mp hline
      rw [hs] at hrange
      exact fits_lineRange? hrange
  · exact each_map.mpr fun v _ => Diagnostic.fits_error (fits_pathRange v.path htop)

section Entities

variable (hscripts : s.settings.lintsScripts = false) (h : Read.EntitiesFit last s.document)
include h

theorem fits_executors : AllLeadIn last (executors s) := each_flatMap.mpr fun e he => fits_executor (h.executors e he)

private theorem fits_orbs : AllLeadIn last (orbs s) := by
  rw [orbs, allLeadIn_map_finding]
  exact each_flatMap.mpr fun use huse => fits_orb (h.orbs use huse)

private theorem fits_names : AllLeadIn last (names s) := by
  rw [names, allLeadIn_map_finding]
  refine fits_sharedNames fun d hd => ?_
  simp only [definitions, List.mem_append] at hd
  rcases hd with (hd | hd) | hd
  · obtain ⟨w, hw, rfl⟩ := List.mem_map.mp hd
    exact (h.workflows w hw).nameRange
  · obtain ⟨j, hj, rfl⟩ := List.mem_map.mp hd
    exact (h.jobs j hj).nameRange
  · obtain ⟨c, hc, rfl⟩ := List.mem_map.mp hd
    exact (h.commands c hc).nameRange

private theorem fits_cycles : AllLeadIn last (cycles s) := by
  refine each_flatMap.mpr fun w hw => each_flatMap.mpr fun name _ => each_map.mpr fun use huse => ?_
  exact Diagnostic.fits_error ((h.workflows w hw).jobs use (List.mem_of_mem_filter huse)).jobNameRange

include hscripts

theorem fits_jobs : AllLeadIn last (jobs s) := each_flatMap.mpr fun j hj => fits_job hscripts (h.jobs j hj)

theorem fits_commands : AllLeadIn last (commands s) := by
  refine each_flatMap.mpr fun c hc => each_append.mpr ⟨?_, ?_⟩
  · exact fits_steps hscripts _ (h.commands c hc).steps
  · exact allLeadIn_map_finding.mpr (fits_unusedCommand (h.commands c hc).nameRange)

private theorem fits_workflows : AllLeadIn last (workflows s) := by
  refine each_append.mpr ⟨each_flatMap.mpr fun w hw => each_flatMap.mpr fun use huse => ?_, fits_cycles h⟩
  exact fits_jobUse hscripts ((h.workflows w hw).jobs use huse)

private theorem fits_orbBody : AllLeadIn last (orbBody s) :=
  each_append.mpr ⟨each_append.mpr ⟨fits_jobs hscripts h, fits_commands hscripts h⟩, fits_executors h⟩

end Entities

private theorem fits_anchors (h : s.document.anchors.Fits last) : AllLeadIn last (anchors s) := by
  unfold anchors
  split
  · exact each_map.mpr fun a ha => fits_unused (h.table a (List.mem_of_mem_filter ha))
  · exact each_nil

variable {g : Grammar}

/-- What a notice leads to fits the text of the tree that was read where it was found. -/
def Notice.FitsWhereRead (g : Grammar) (t : Tree) (n : Notice) : Prop :=
  ∃ depth inner, Read.ReadIn g depth t inner ∧ n.Fits (lastLine inner.source)

private theorem AllLeadIn.whereRead {ns : List Notice} (h : AllLeadIn (lastLine t.source) ns) :
    Each (Notice.FitsWhereRead g t) ns := fun n hn => ⟨0, t, .self t, h n hn⟩

/-- What is found in a document that was read from a tree fits its text, or the text of one of its orbs. -/
theorem fits_document {loader : Load.Loader} {schema : Option Schema} (hscripts : s.settings.lintsScripts = false)
    (ht : t.LiesInText) (htree : s.document.tree = t) (h : Read.FitsText t s.document) :
    Each (Notice.FitsWhereRead g t) (document loader schema s) := by
  have hentities := h.entities
  have hsource : s.document.source = t.source := by rw [Document.source, htree]
  have hanchors : s.document.anchors.Fits (lastLine t.source) := by
    rw [h.anchors]
    exact Anchors.fits_ofTree ht
  have htop : s.document.view.FitsFrom (lastLine t.source) s.document.tree.top := by
    rw [Document.view, htree, h.anchors]
    exact View.fitsFrom_of_liesInText ht t.top_mem_preorder
  have hlocal : ∀ o ∈ s.document.localOrbs, Each (Notice.FitsWhereRead g t) (orbBody (s.inOrb o)) := by
    intro o ho n hn
    obtain ⟨text, htext, hfits⟩ := h.localOrbs o ho
    exact ⟨1, g.tree text, .orb htext (.self _), fits_orbBody (s := s.inOrb o) hscripts hfits n hn⟩
  simp only [document, each_append, each_flatMap]
  exact ⟨⟨⟨⟨⟨⟨⟨⟨⟨(fits_anchors hanchors).whereRead, (fits_workflows hscripts hentities).whereRead⟩,
    (fits_jobs hscripts hentities).whereRead⟩, (fits_commands hscripts hentities).whereRead⟩,
    (fits_orbs hentities).whereRead⟩, (fits_executors hentities).whereRead⟩, (fits_names hentities).whereRead⟩,
    (fits_shape hsource htop).whereRead⟩, (fits_references ht htree).whereRead⟩, hlocal⟩

end Check

end PipelineLint
