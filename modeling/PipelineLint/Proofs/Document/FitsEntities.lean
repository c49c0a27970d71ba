import PipelineLint.Proofs.Document.FitsSteps

/-! # Entities that are read fit their text

For each function that reads an entity: if it has a result, this fits and so does what is found on the way. Fields of an
entity are read one after the other, and each of them leaves an entity that fits.
-/

namespace PipelineLint.Read

open Yaml Yaml.View Reads

variable {v : View} {n : Node} {p : Pair} {i : Item} {last : Nat}

theorem yieldsIn_insertFirst {α : Type} {P : α → Prop} {m : NameMap α} {name message : String} {entity : α}
    {nameRange : α → Range} (hrange : ∀ a, P a → (nameRange a).Fits last) (hm : ∀ a ∈ m.values, P a)
    (hentity : P entity) : YieldsIn last (fun m => ∀ a ∈ m.values, P a) (insertFirst m name entity nameRange message) := by
  rw [insertFirst]
  split
  · exact yields_pure fun a ha => (NameMap.mem_values_insert ha).elim (fun heq => heq ▸ hentity) (hm a)
  · next first hfirst =>
    have hold : (nameRange first).Fits last := by
      obtain ⟨entry, hentry, rfl⟩ := Option.map_eq_some_iff.mp hfirst
      exact hrange _ (hm _ (List.mem_map_of_mem (List.mem_of_find?_eq_some hentry)))
    have hnew : (Diagnostic.warning .duplicate {} message).Fits last := Diagnostic.fits_warning Range.fits_nowhere
    refine (yields_note ((hnew.withLabel (hrange _ hentity) _).withExplanation hold _)).bind fun _ _ => ?_
    exact (yields_note (Diagnostic.fits_warning hold)).bind fun _ _ => yields_pure hm

private theorem yieldsIn_stepsDefault (hn : v.FitsFrom last n) : YieldsIn last (fun _ => True) (stepsDefault v n) := by
  rw [stepsDefault]
  refine (yields_each (P := fun _ => True) fun i hi => ?_).bind fun _ _ => yields_pure trivial
  split
  · exact (yieldsIn_readStep (hn.items i hi)).mono (fun _ => id) fun _ _ => trivial
  · exact (yields_note (Diagnostic.fits_error (hn.items i hi).range)).bind fun _ _ => yields_pure trivial

private theorem yieldsIn_defaultFor (type : ParameterType) (hp : v.PairFits last p) :
    YieldsIn last (fun _ => True) (defaultFor v type p) := by
  rw [defaultFor.eq_def]
  cases type
  case steps =>
    dsimp only
    split
    · exact yields_pure trivial
    · next value hvalue =>
      have hfrom := hp.value value (Option.filter_eq_some_iff.mp hvalue).1
      exact (yieldsIn_stepsDefault hfrom).bind fun _ _ => yields_pure trivial
  all_goals exact yields_pure trivial

private theorem yieldsIn_parameterField {parameter : Parameter} (hparameter : parameter.defaultRange.Fits last)
    (hp : v.PairFits last p) : YieldsIn last (fun q => q.defaultRange.Fits last) (parameterField v parameter p) := by
  unfold parameterField
  split
  · exact yields_pure hparameter
  · split
    · exact yields_pure hparameter
    · exact yields_pure hparameter
  · refine (yieldsIn_defaultFor _ hp).bind fun found _ => ?_
    cases found with
    | none => exact yields_pure hparameter
    | some type => exact yields_pure hp.openRange
  · exact yields_pure hparameter

private theorem yieldsIn_parameter (hp : v.PairFits last p) : YieldsIn last (fun _ => True) (parameter v p) := by
  unfold parameter
  split
  · next key body _ hbody =>
    obtain ⟨value, hvalue, hmapping⟩ := Option.bind_eq_some_iff.mp hbody
    have hpairs := ((hp.value value hvalue).mapping hmapping).pairs
    dsimp only
    split
    · exact yields_pure trivial
    · refine (yields_through (I := fun parameter => parameter.defaultRange.Fits last)
        (fun _ q hq hparameter => yieldsIn_parameterField hparameter (hpairs q hq)) Range.fits_nowhere).bind
        fun declared hdeclared => ?_
      split
      · exact yields_pure trivial
      · exact (yields_note (Diagnostic.fits_error hdeclared)).bind fun _ _ => yields_pure trivial
  · exact yields_pure trivial

theorem yieldsIn_parameters (hn : v.FitsFrom last n) : YieldsIn last (fun _ => True) (parameters v n) :=
  (yields_each fun p hp => yieldsIn_parameter (hn.pairs p hp)).bind fun _ _ => yields_pure trivial

private theorem fits_imageField {spec : ImageSpec} (hspec : spec.imageRange.Fits last) (hp : v.PairFits last p) :
    (imageField v spec p).imageRange.Fits last := by
  unfold imageField
  split
  · exact hspec
  · dsimp only
    split
    · exact hp.range
    all_goals exact hspec

private theorem fits_images (hn : v.FitsFrom last n) : ∀ spec ∈ images v n, spec.imageRange.Fits last := by
  intro spec hspec
  obtain ⟨i, hi, hspec⟩ := List.mem_filterMap.mp hspec
  obtain ⟨mapping, hmapping, rfl⟩ := Option.map_eq_some_iff.mp hspec
  obtain ⟨value, hvalue, hmapping⟩ := Option.bind_eq_some_iff.mp hmapping
  have hpairs := (((hn.items i hi).value value hvalue).mapping hmapping).pairs
  exact List.foldlRecOn (motive := fun spec : ImageSpec => spec.imageRange.Fits last) _ _ Range.fits_nowhere
    fun _ hspec q hq => fits_imageField hspec (hpairs q hq)

private theorem fits_machine (hp : v.PairFits last p) :
    (machine v p).range.Fits last ∧ (machine v p).imageRange.Fits last := by
  unfold machine
  split
  · exact ⟨hp.range, Range.fits_nowhere⟩
  · next value hvalue =>
    split
    · exact ⟨hp.range, Range.fits_nowhere⟩
    · have hpairs := (hp.value value hvalue).pairs
      refine List.foldlRecOn (motive := fun m : Machine => m.range.Fits last ∧ m.imageRange.Fits last) _ _
        ⟨hp.range, Range.fits_nowhere⟩ fun m hm q hq => ?_
      split
      · exact ⟨hm.1, (hpairs q hq).range⟩
      · exact hm
      · exact hm

private theorem fits_executorKind (family : String) (hp : v.PairFits last p) : (executorKind v family p).Fits last := by
  have hrange (key : String) : ∀ q ∈ p.value.bind fun value => v.find? value key, q.range.Fits last := by
    intro q hq
    obtain ⟨value, hvalue, hq⟩ := Option.bind_eq_some_iff.mp hq
    exact ((hp.value value hvalue).pairs q (List.mem_of_find?_eq_some hq)).range
  unfold executorKind
  dsimp only
  split
  · cases hvalue : p.value with
    | none => exact List.forall_mem_nil _
    | some value => exact fits_images (hp.value value hvalue)
  · exact fits_machine hp
  · rw [ExecutorKind.Fits]
    split
    · next q hq => exact hrange "xcode" q hq
    · exact Range.fits_nowhere
  · rw [ExecutorKind.Fits]
    split
    · next q hq => exact hrange "image" q hq
    · exact Range.fits_nowhere

theorem fits_executorField {e : Executor} (he : e.Fits last) (hp : v.PairFits last p) :
    (executorField v e p).Fits last := by
  unfold executorField
  dsimp only
  split
  · split
    · exact { he with kind := fits_executorKind _ hp }
    · exact he
  · split
    · refine { he with resourceClass := ?_ }
      by_cases hempty : (v.textOrEmpty p.value).isEmpty
      · exact .inl (String.isEmpty_iff.mp hempty)
      · rw [if_neg hempty]
        exact .inr hp.range
    · exact { he with }
    · exact { he with }
    · exact { he with }
    · split
      · exact { he with }
      · exact he
    · exact he

private theorem fits_inlineExecutor (hn : v.FitsFrom last n) : (inlineExecutor v n).Fits last :=
  List.foldlRecOn (motive := Executor.Fits last) _ _ Executor.fits_default
    fun _ he q hq => fits_executorField he (hn.pairs q hq)

private theorem yieldsIn_executorBody (hn : v.FitsFrom last n) :
    YieldsIn last (Executor.Fits last) (executorBody v n) := by
  refine yields_through (fun e p hp he => ?_) Executor.fits_default
  have hp := hn.pairs p hp
  split
  · split
    · exact yields_pure { he with }
    · next value hvalue => exact (yieldsIn_parameters (hp.value value hvalue)).bind fun _ _ => yields_pure { he with }
  · exact yields_pure (fits_executorField he hp)

theorem yieldsIn_executors (hn : v.FitsFrom last n) :
    YieldsIn last (fun m => ∀ e ∈ m.values, e.Fits last) (executors v n) := by
  refine yields_through (fun m p hp hm => ?_) (by simp [values_empty])
  have hp := hn.pairs p hp
  split
  · next key mapping hkey hbody =>
    obtain ⟨value, hvalue, hmapping⟩ := Option.bind_eq_some_iff.mp hbody
    refine (yieldsIn_executorBody ((hp.value value hvalue).mapping hmapping)).bind fun body hbody => ?_
    exact yieldsIn_insertFirst (fun _ he => he.nameRange) hm { hbody with nameRange := hp.key key hkey, range := hp.range }
  · exact yields_pure hm

private theorem yieldsIn_executorUse (hp : v.PairFits last p) :
    YieldsIn last (ExecutorUse.Fits last) (executorUse v p) := by
  unfold executorUse
  split
  · have hstart : (⟨p.range.start.line, p.range.start.column + "executor:".length⟩ : Position).line ≤ last := hp.range.start
    exact yields_pure ⟨Range.fits_nowhere, (Range.fits_point hstart).toLineEnd, trivial⟩
  · next value hvalue =>
    have hfrom := hp.value value hvalue
    split
    · exact yields_pure ⟨hfrom.range, hp.range, trivial⟩
    · next mapping hmapping =>
      refine yields_through (fun use field hfield huse => ?_) ⟨Range.fits_nowhere, hp.range, trivial⟩
      have hfield := (hfrom.mapping hmapping).pairs field hfield
      split
      · exact yields_pure { huse with nameRange := hfield.valueOrPairRange }
      · refine (yieldsIn_readAssignment hfield).bind fun found hfound => ?_
        cases found with
        | none => exact yields_pure huse
        | some a => exact yields_pure { huse with parameters := huse.parameters.insert (hfound a rfl) }

private theorem yieldsIn_commandField {c : Command} (hc : c.Fits last) (hp : v.PairFits last p) :
    YieldsIn last (Command.Fits last) (commandField v c p) := by
  unfold commandField
  split
  · exact yields_pure hc
  · next value hvalue =>
    have hfrom := hp.value value hvalue
    split
    · exact yields_pure { hc with }
    · exact (yieldsIn_readSteps hfrom).bind fun steps hsteps => yields_pure { hc with steps := hsteps }
    · exact (yieldsIn_parameters hfrom).bind fun _ _ => yields_pure { hc with }
    · exact yields_pure hc

private theorem yieldsIn_command (hp : v.PairFits last p) :
    YieldsIn last (fun found => ∀ c ∈ found, c.Fits last) (command v p) := by
  unfold command
  split
  · next key mapping hkey hbody =>
    obtain ⟨value, hvalue, hmapping⟩ := Option.bind_eq_some_iff.mp hbody
    have hpairs := ((hp.value value hvalue).mapping hmapping).pairs
    have hbare : Command.Fits last { name := v.text key, nameRange := key.range, range := p.range } :=
      ⟨hp.key key hkey, Step.allFit_nil⟩
    refine (yields_through (I := Command.Fits last) (fun c q hq hc => yieldsIn_commandField hc (hpairs q hq))
      hbare).bind fun c hc => yields_pure ?_
    rintro _ ⟨⟩
    exact hc
  · exact yields_pure (forall_mem_none _)

theorem yieldsIn_commands (hn : v.FitsFrom last n) :
    YieldsIn last (fun m => ∀ c ∈ m.values, c.Fits last) (commands v n) := by
  refine yields_through (fun m p hp hm => ?_) (by simp [values_empty])
  refine (yieldsIn_command (hn.pairs p hp)).bind fun found hfound => ?_
  cases found with
  | none => exact yields_pure hm
  | some c =>
    dsimp only
    split
    · exact yields_pure hm
    · exact yieldsIn_insertFirst (fun _ hc => hc.nameRange) hm (hfound c rfl)

private theorem fits_retention (hn : v.FitsFrom last n) : (retention v n).Fits last := by
  refine List.foldlRecOn (motive := Retention.Fits last) _ _ ⟨hn.range, forall_mem_none _⟩ fun r hr p hp => ?_
  split
  · split
    · exact { hr with caches := by rintro _ ⟨⟩; exact (hn.pairs p hp).range }
    · exact hr
  · exact hr

private theorem yieldsIn_jobField {j : Job} (hj : j.Fits last) (hp : v.PairFits last p) :
    YieldsIn last (Job.Fits last) (jobField v j p) := by
  unfold jobField
  dsimp only
  split
  · refine (yieldsIn_executorUse hp).bind fun use huse => yields_pure { hj with executor := ?_ }
    rintro _ ⟨⟩
    exact huse
  · split
    · exact yields_pure hj
    · next value hvalue =>
      have hfrom := hp.value value hvalue
      split
      · exact yields_pure { hj with type := by rintro _ ⟨⟩; exact hfrom.located }
      · exact yields_pure { hj with }
      · exact yields_pure { hj with }
      · exact yields_pure { hj with }
      · split
        · exact yields_pure { hj with parallelismRange := hp.range }
        · exact yields_pure hj
      · exact yields_pure { hj with }
      · exact (yieldsIn_readSteps hfrom).bind fun steps hsteps =>
          yields_pure { hj with steps := hsteps, stepsRange := hp.range }
      · exact (yieldsIn_parameters hfrom).bind fun _ _ => yields_pure { hj with }
      · exact yields_pure { hj with }
      · exact yields_pure { hj with retention := by rintro _ ⟨⟩; exact fits_retention hfrom }
      · exact yields_pure { hj with }
      · exact yields_pure hj

private theorem yieldsIn_job (hp : v.PairFits last p) :
    YieldsIn last (fun found => ∀ j ∈ found, j.Fits last) (job v p) := by
  unfold job
  split
  · next key mapping hkey hbody =>
    obtain ⟨value, hvalue, hmapping⟩ := Option.bind_eq_some_iff.mp hbody
    have hfrom := (hp.value value hvalue).mapping hmapping
    have hbare : Job.Fits last { name := v.text key, nameRange := key.range, range := p.range } :=
      { nameRange := hp.key key hkey
        range := hp.range
        type := forall_mem_none _
        parallelismRange := Range.fits_nowhere
        steps := Step.allFit_nil
        stepsRange := Range.fits_nowhere
        executor := forall_mem_none _
        inlineExecutor := forall_mem_none _
        retention := forall_mem_none _ }
    dsimp only
    refine (yields_through (I := Job.Fits last) (fun j q hq hj => yieldsIn_jobField hj (hfrom.pairs q hq)) hbare).bind
      fun j hj => ?_
    split
    · have hinline := fits_inlineExecutor hfrom
      refine yields_pure ?_
      rintro _ ⟨⟩
      refine { hj with inlineExecutor := ?_ }
      rintro _ ⟨⟩
      exact { hinline with nameRange := hj.nameRange, range := hj.range }
    · refine yields_pure ?_
      rintro _ ⟨⟩
      exact hj
  · exact yields_pure (forall_mem_none _)

theorem yieldsIn_jobs (hn : v.FitsFrom last n) : YieldsIn last (fun m => ∀ j ∈ m.values, j.Fits last) (jobs v n) := by
  refine yields_through (fun m p hp hm => ?_) (by simp [values_empty])
  refine (yieldsIn_job (hn.pairs p hp)).bind fun found hfound => ?_
  cases found with
  | none => exact yields_pure hm
  | some j => exact yieldsIn_insertFirst (fun _ hj => hj.nameRange) hm (hfound j rfl)

private theorem fits_requirements (hn : v.FitsFrom last n) : ∀ r ∈ requirements v n, r.Fits last := by
  have hstatus : ∀ status ∈ [(⟨"success", {}⟩ : Located)], status.Fits last :=
    List.forall_mem_singleton.mpr Range.fits_nowhere
  refine List.forall_mem_flatMap.mpr fun i hi => ?_
  have hi := hn.items i hi
  unfold requirementsOf
  split
  · exact List.forall_mem_nil _
  · next value hvalue =>
    split
    · exact List.forall_mem_singleton.mpr ⟨hi.range, hstatus, Range.fits_nowhere⟩
    · next mapping hmapping =>
      refine List.forall_mem_map.mpr fun p hp => ?_
      have hp := ((hi.value value hvalue).mapping hmapping).pairs p hp
      dsimp only
      split
      · exact ⟨hp.keyRange, List.forall_mem_nil _, hp.openRange⟩
      · next status hstatus =>
        have hfrom := hp.value status hstatus
        exact ⟨hp.keyRange, hfrom.locatedTexts, hfrom.range⟩

private theorem yieldsIn_jobUseField {use : JobUse} (huse : use.Fits last) (hp : v.PairFits last p) :
    YieldsIn last (JobUse.Fits last) (jobUseField v use p) := by
  unfold jobUseField
  split
  · exact yields_pure huse
  · next value hvalue =>
    have hfrom := hp.value value hvalue
    split
    · exact yields_pure huse
    · exact yields_pure { huse with type := by rintro _ ⟨⟩; exact hfrom.located }
    · exact yields_pure { huse with requires := fits_requirements hfrom }
    · exact yields_pure { huse with }
    · exact yields_pure { huse with contexts := hfrom.locatedTexts }
    · exact yields_pure huse
    · exact yields_pure huse
    · exact yields_pure huse
    · split
      · exact yields_pure { huse with }
      · next inner hinner =>
        exact (yieldsIn_readAssignments (hfrom.field hinner)).bind fun matrix hmatrix =>
          yields_pure { huse with matrix := hmatrix }
    · exact (yieldsIn_readSteps hfrom).bind fun steps hsteps => yields_pure { huse with preSteps := hsteps }
    · exact (yieldsIn_readSteps hfrom).bind fun steps hsteps => yields_pure { huse with postSteps := hsteps }
    · exact yields_pure { huse with maxAutoReruns := by rintro _ ⟨⟩; exact hfrom.located }
    · exact yields_pure { huse with }
    · refine (yieldsIn_readAssignment hp).bind fun found hfound => ?_
      cases found with
      | none => exact yields_pure huse
      | some a => exact yields_pure { huse with parameters := huse.parameters.insert (hfound a rfl) }

private theorem yieldsIn_jobUse (hi : v.ItemFits last i) : YieldsIn last (JobUse.Fits last) (jobUse v i) := by
  have hbare {use : JobUse} (hrange : use.jobNameRange.Fits last)
      (heq : use = { range := use.range, jobName := use.jobName, jobNameRange := use.jobNameRange
                     stepName := use.stepName, stepNameRange := use.stepNameRange }) : use.Fits last := by
    rw [heq]
    exact {
      jobNameRange := hrange
      requires := List.forall_mem_nil _
      contexts := List.forall_mem_nil _
      type := forall_mem_none _
      parameters := trivial
      preSteps := Step.allFit_nil
      postSteps := Step.allFit_nil
      matrix := trivial
      maxAutoReruns := forall_mem_none _ }
  unfold jobUse
  dsimp only
  split
  · exact yields_pure (hbare hi.markerRange rfl)
  · next value hvalue =>
    have hfrom := hi.value value hvalue
    split
    · exact yields_pure (hbare hfrom.range rfl)
    · next mapping hmapping =>
      split
      · exact yields_pure (hbare Range.fits_nowhere rfl)
      · next first hfirst =>
        have hfirst := (hfrom.mapping hmapping).pairs first (List.mem_of_head? hfirst)
        split
        · exact yields_pure (hbare hfirst.keyRange rfl)
        · next body hbody =>
          exact yields_through (fun use q hq huse => yieldsIn_jobUseField huse ((hfirst.value body hbody).pairs q hq))
            (hbare hfirst.keyRange rfl)

private theorem yieldsIn_workflowField {w : Workflow} (hw : w.Fits last) (hp : v.PairFits last p) :
    YieldsIn last (Workflow.Fits last) (workflowField v w p) := by
  unfold workflowField
  split
  · exact yields_pure hw
  · next value hvalue =>
    split
    · refine (yields_each fun i hi => yieldsIn_jobUse ((hp.value value hvalue).items i hi)).bind fun uses huses => ?_
      exact yields_pure { hw with jobs := List.forall_mem_append.mpr ⟨hw.jobs, huses⟩ }
    · exact yields_pure { hw with }
    · exact yields_pure hw

private theorem yieldsIn_workflow (hp : v.PairFits last p) :
    YieldsIn last (fun found => ∀ w ∈ found, w.Fits last) (workflow v p) := by
  unfold workflow
  split
  · next key value hkey hvalue =>
    have hbare : Workflow.Fits last { name := v.text key, nameRange := key.range, range := p.range } :=
      ⟨hp.key key hkey, List.forall_mem_nil _⟩
    refine (yields_through (I := Workflow.Fits last)
      (fun w q hq hw => yieldsIn_workflowField hw ((hp.value value hvalue).pairs q hq)) hbare).bind
      fun w hw => yields_pure ?_
    rintro _ ⟨⟩
    exact { hw with }
  · exact yields_pure (forall_mem_none _)

theorem yieldsIn_workflows (version : Float) (hn : v.FitsFrom last n) :
    YieldsIn last (fun m => ∀ w ∈ m.values, w.Fits last) (workflows v version n) := by
  refine yields_through (fun m p hp hm => ?_) (by simp [values_empty])
  have hp := hn.pairs p hp
  split
  · split
    · have hdeprecated : (Diagnostic.warning .deprecatedKey p.range "Version key is deprecated since 2.1").Fits last :=
        Diagnostic.fits_warning hp.range
      exact (yields_note (hdeprecated.withReplacement hp.range _ _)).bind fun _ _ => yields_pure hm
    · exact yields_pure hm
  · refine (yieldsIn_workflow hp).bind fun found hfound => ?_
    cases found with
    | none => exact yields_pure hm
    | some w => exact yieldsIn_insertFirst (fun _ hw => hw.nameRange) hm (hfound w rfl)

end PipelineLint.Read
