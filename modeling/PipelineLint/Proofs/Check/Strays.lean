import PipelineLint.Proofs.Check.Said

/-! # Names that lead nowhere

What the checks say about names of jobs, commands and executors, and when. All checks but one look first whether a
name leads into an orb whose contents are unknown; the one is that of the executor that a job names, which is sought
in whatever orb of its name is known. So `Truthful`: whatever is found about such a name is of one of these two
origins.
-/

namespace PipelineLint.Check

/-- The kinds of findings about names of jobs, commands and executors that lead nowhere. -/
def isStrayCode : Code → Bool
  | .undefinedJob | .undefinedCommand | .undefinedExecutor => true
  | _ => false

/-- The finding says that the name of a job, a command or an executor leads nowhere. -/
def isStray (d : Diagnostic) : Bool := d.code.any isStrayCode

/-- The use of a name that leads nowhere. -/
inductive Stray where
  | job (name : String)
  | step (name : String)
  /-- An item of a list that is given for steps. -/
  | stepItem (name : String)
  | executor (name : String)
  | executorValue (name : String)
  /-- The default of a parameter that a job uses as its executor. -/
  | executorDefault (name : String)
  deriving DecidableEq, Repr

/-- What is said about an executor that a known orb does not have. -/
def notInOrb (orb entity : String) (range : Range) : Diagnostic :=
  .error .undefinedExecutor range ("Cannot find executor " ++ entity ++ " in orb " ++ orb)

namespace Stray

@[simp]
def name : Stray → String
  | job name | step name | stepItem name | executor name | executorValue name | executorDefault name => name

@[simp]
def code : Stray → Code
  | job _ => .undefinedJob
  | step _ | stepItem _ => .undefinedCommand
  | executor _ | executorValue _ | executorDefault _ => .undefinedExecutor

@[simp]
def before : Stray → String
  | job _ => "Cannot find declaration for job "
  | step _ => "Cannot find declaration for step "
  | stepItem _ => "Cannot find a definition for command named "
  | executor _ => "Executor \""
  | executorValue _ => "Executor `"
  | executorDefault _ => "Parameter is used as executor but executor `"

@[simp]
def after : Stray → String
  | job _ | step _ | stepItem _ => ""
  | executor _ => "\" does not exist"
  | executorValue _ => "` does not exist"
  | executorDefault _ => "` does not exist."

/-- What is said about the name. -/
@[simp]
def message (u : Stray) : String := u.before ++ u.name ++ u.after

/-- The finding about the name. -/
@[simp]
def report (u : Stray) (range : Range) : Diagnostic := .error u.code range u.message

/-- A finding is about one name: where two texts of one kind differ before the name, a single character tells. -/
theorem eq_of_report_eq {u v : Stray} {range range' : Range} (h : u.report range = v.report range') : u = v := by
  have hcode : some u.code = some v.code := congrArg Diagnostic.code h
  have hmessage : u.message = v.message := congrArg Diagnostic.message h
  have hchar (k : Nat) : u.message.toList[k]? = v.message.toList[k]? := by rw [hmessage]
  cases u <;> cases v <;> cases hcode
  case job.job | step.step | stepItem.stepItem | executor.executor | executorValue.executorValue
      | executorDefault.executorDefault => simpa [message, before, after, name] using hmessage
  case step.stepItem | stepItem.step => simpa [message, before] using hchar 12
  case executor.executorValue | executorValue.executor => simpa [message, before] using hchar 9
  case executor.executorDefault | executorDefault.executor | executorValue.executorDefault
      | executorDefault.executorValue => simpa [message, before] using hchar 0

theorem report_ne_notInOrb {u : Stray} {orb entity : String} {range range' : Range} :
    u.report range ≠ notInOrb orb entity range' := by
  intro h
  have hcode : some u.code = some .undefinedExecutor := congrArg Diagnostic.code h
  have hmessage : u.message = "Cannot find executor " ++ entity ++ " in orb " ++ orb := congrArg Diagnostic.message h
  have hchar : u.message.toList[0]? = ("Cannot find executor " ++ entity ++ " in orb " ++ orb).toList[0]? := by
    rw [hmessage]
  cases u <;> cases hcode
  all_goals simp [message, before] at hchar

end Stray

/-- The name of an executor is sought among the contents of an orb, where it is not. -/
structure SoughtInVain (t : Scope) (use : ExecutorUse) (orb entity : String) : Prop where
  literal : Reference.isOnly use.name = false ∧ Reference.hasSubstitution use.name = false
  foreign : t.document.executors.get? use.name = none
  split : splitOrbName use.name = some (orb, entity)
  sought : ∃ info, t.orbInfo? orb = some info ∧ info.executors.get? entity = none

/-- A finding about a name that leads nowhere is about one that leads into no unknown orb, or about an executor that a
job names and that is sought in vain. -/
inductive Told (t : Scope) : Diagnostic → Prop where
  | stray (u : Stray) (range : Range) (known : t.isFromUnknownOrb u.name = false) : Told t (u.report range)
  | sought {j : Job} {use : ExecutorUse} {orb entity : String} (job : j ∈ t.document.jobs.values)
      (names : j.executor = some use) (vain : SoughtInVain t use orb entity) :
      Told t (notInOrb orb entity use.nameRange)

/-- No finding is about a name that leads nowhere. -/
def Quiet (ds : List Diagnostic) : Prop := ∀ d ∈ ds, isStray d = false

theorem Coded.quiet {codes : List Code} {ds : List Diagnostic} (h : Coded codes ds)
    (hcodes : codes.any isStrayCode = false) : Quiet ds := h.any_eq_false hcodes

variable {s : Scope}

/-- Whatever is found about names that lead nowhere is rightly told. -/
def Truthful (t : Scope) (ns : List Notice) : Prop := ∀ d, .finding d ∈ ns → isStray d = true → Told t d

section Truthful

variable {t : Scope} {ns ms : List Notice} {ds : List Diagnostic}

@[simp] theorem truthful_nil : Truthful t [] := fun _ h => absurd h List.not_mem_nil

@[simp] theorem truthful_append : Truthful t (ns ++ ms) ↔ Truthful t ns ∧ Truthful t ms := by
  simp only [Truthful, List.mem_append, or_imp, forall_and]

@[simp] theorem truthful_flatMap {α : Type} {f : α → List Notice} {xs : List α} :
    Truthful t (xs.flatMap f) ↔ ∀ x ∈ xs, Truthful t (f x) := by
  simp only [Truthful, List.mem_flatMap, forall_exists_index, and_imp]
  exact ⟨fun h x hx d hd => h d x hx hd, fun h d x hx hd => h x hx d hd⟩

@[simp] theorem truthful_finding {d : Diagnostic} : Truthful t [.finding d] ↔ (isStray d = true → Told t d) := by
  simp only [Truthful, List.mem_singleton, Notice.finding.injEq, forall_eq]

theorem truthful_of_forall_mem (h : ∀ n ∈ ns, Truthful t [n]) : Truthful t ns :=
  fun d hd hstray => h _ hd d (List.mem_singleton_self _) hstray

theorem truthful_of_mem {n : Notice} (h : Truthful t ns) (hn : n ∈ ns) : Truthful t [n] := by
  intro d hd hstray
  obtain rfl := List.mem_singleton.mp hd
  exact h d hn hstray

theorem truthful_of_isStray_eq_false {d : Diagnostic} (h : isStray d = false) : Truthful t [.finding d] :=
  truthful_finding.mpr fun hstray => absurd hstray (by simp [h])

theorem Quiet.truthful (h : Quiet ds) : Truthful t (ds.map .finding) := by
  refine truthful_of_forall_mem fun n hn => ?_
  obtain ⟨d, hd, rfl⟩ := List.mem_map.mp hn
  exact truthful_of_isStray_eq_false (h d hd)

theorem truthful_of_quiet (h : Quiet (findings ns)) : Truthful t ns :=
  fun d hd hstray => absurd hstray (by simp [h d (mem_findings_iff.mpr hd)])

end Truthful

theorem truthful_report (u : Stray) (range : Range) (known : s.isFromUnknownOrb u.name = false) :
    Truthful s [.finding (u.report range)] := truthful_finding.mpr fun _ => .stray u range known

private theorem truthful_executorName (name : String) (range : Range) :
    Truthful s ((executorName s name range).map .finding) := by
  unfold executorName
  split
  · exact truthful_nil
  · next h =>
    have hknown : s.isFromUnknownOrb name = false := by
      simp only [Bool.or_eq_true, not_or] at h
      simpa using h.1.2
    simpa using truthful_report (.executorValue name) range hknown

private theorem truthful_executorValue (p : Parameter) (entity : String) (range : Range) (v : Value) :
    Truthful s ((executorValue s p entity range v).map .finding) := by
  unfold executorValue
  split
  · exact truthful_executorName _ _
  · split
    · exact truthful_executorName _ _
    · exact truthful_nil
    · exact truthful_of_isStray_eq_false rfl
  · exact truthful_of_isStray_eq_false rfl

private theorem truthful_plainValue (p : Parameter) (entity : String) (range : Range) (v : Value) :
    Truthful s ((plainValue s p entity range v).map .finding) := by
  unfold plainValue
  cases p.type with
  | executor => exact truthful_executorValue p entity range v
  | steps => exact truthful_nil
  | enum =>
    refine (@Coded.quiet [.typeMismatch, .invalidValue] _ ?_ rfl).truthful
    dsimp only
    cases v.asText? <;> simp
  | _ =>
    refine (@Coded.quiet [.typeMismatch] _ ?_ rfl).truthful
    cases v <;> simp

private theorem truthful_stepName (name : String) (range : Range) :
    Truthful s ((stepName s name range).map .finding) := by
  unfold stepName
  split
  · exact truthful_nil
  · next h =>
    have hknown : s.isFromUnknownOrb name = false := by
      simp only [Scope.isStepName, Bool.or_eq_true, not_or] at h
      simpa using h.2
    simpa using truthful_report (.stepItem name) range hknown

theorem truthful_missing (declared : Parameters) (entity : String) (range : Range) (isAssigned : String → Bool) :
    Truthful s ((missing declared entity range isAssigned).map .finding) :=
  ((coded_missing declared entity range isAssigned).quiet rfl).truthful

theorem truthful_undeclared (name entity : String) (range : Range) :
    Truthful s [.finding (undeclared name entity range)] := truthful_of_isStray_eq_false rfl

theorem SaidOfValue.truthful {usable : Parameters} {n : Notice} (h : SaidOfValue s usable n) : Truthful s [n] := by
  cases h with
  | undeclared name entity range => exact truthful_undeclared name entity range
  | mismatch => exact truthful_of_isStray_eq_false rfl
  | reference found =>
    exact truthful_of_mem ((coded_referenceValue _ _ _ _ _).quiet rfl).truthful (List.mem_map_of_mem found)
  | plain found => exact truthful_of_mem (truthful_plainValue _ _ _ _) (List.mem_map_of_mem found)
  | item found => exact truthful_of_mem (truthful_stepName _ _) (List.mem_map_of_mem found)

theorem Said.truthful {usable : Parameters} {st : Step} {n : Notice} (h : Said s usable st n) : Truthful s [n] := by
  cases h with
  | run found => exact truthful_of_mem (truthful_of_quiet ((coded_run _ _).quiet rfl)) found
  | place found =>
    exact truthful_of_mem ((coded_stepsPlace _ _ _).quiet rfl).truthful (List.mem_map_of_mem found)
  | @unknown call known => simpa using truthful_report (.step call.name) call.range known
  | path => exact truthful_of_isStray_eq_false rfl
  | missing defined found => exact truthful_of_mem (truthful_missing _ _ _ _) (List.mem_map_of_mem found)
  | value found => exact found.truthful

theorem truthful_steps (s : Scope) (usable : Parameters) (sts : List Step) : Truthful s (steps s usable sts) :=
  truthful_of_forall_mem fun _ hn =>
    let ⟨_, _, hsaid⟩ := said_of_mem_steps sts hn
    hsaid.truthful

theorem SaidWithin.truthful {usable : Parameters} {inside : Step → Prop} {n : Notice}
    (h : SaidWithin s usable inside n) : Truthful s [n] := by
  obtain hvalue | ⟨_, _, hsaid⟩ := h
  · exact hvalue.truthful
  · exact hsaid.truthful

theorem truthful_values (s : Scope) (usable : Parameters) (entity : String) (declared : Parameters)
    (as : List Assignment) : Truthful s (values s usable entity declared as) :=
  truthful_of_forall_mem fun _ hn => (saidWithin_of_mem_values entity declared as hn).truthful

private theorem truthful_value (s : Scope) (usable : Parameters) (p : Parameter) (entity : String) (range : Range)
    (v : Value) : Truthful s (value s usable p entity range v) :=
  truthful_of_forall_mem fun _ hn => (saidWithin_of_mem_value p entity range v hn).truthful

private theorem truthful_matrixValue (entity : String) (declared : Parameters) (a : Assignment) :
    Truthful s (matrixValue s entity declared a) := by
  unfold matrixValue
  split
  · exact truthful_undeclared _ _ _
  split
  · exact truthful_flatMap.mpr fun item _ => truthful_value s ∅ _ entity item.valueRange item.value
  · exact truthful_nil
  · exact truthful_of_isStray_eq_false rfl

private theorem truthful_jobName (use : JobUse) (hknown : s.isFromUnknownOrb use.jobName = false) :
    Truthful s (jobName s use) := by
  unfold jobName
  split
  · split
    · unfold jobUseParameters
      refine truthful_append.mpr ⟨truthful_append.mpr ⟨truthful_missing _ _ _ _, truthful_values s ∅ _ _ _⟩, ?_⟩
      exact truthful_flatMap.mpr fun a _ => truthful_matrixValue _ _ a
    · exact truthful_nil
  · simpa using truthful_report (.job use.jobName) use.jobNameRange hknown

private theorem truthful_jobUse (w : Workflow) (use : JobUse) : Truthful s (jobUse s w use) := by
  unfold jobUse
  split
  · exact truthful_nil
  next hchecked =>
  have hknown : s.isFromUnknownOrb use.jobName = false := by
    simp only [Bool.or_eq_true, not_or] at hchecked
    simpa using hchecked.2
  split
  · exact truthful_nil
  have hrequires : Coded [.undefinedRequirement, .invalidValue] (use.requires.flatMap (requirement w)) := by
    simp [coded_requirement]
  have hothers : Coded [.invalidValue, .undefinedContext]
      (use.maxAutoReruns.toList.flatMap jobReruns ++ use.contexts.flatMap (context s)) := by
    simp only [coded_append, coded_flatMap]
    exact ⟨fun count _ => (coded_jobReruns count).mono (by simp), fun c _ => (coded_context c).mono (by simp)⟩
  simp only [truthful_append]
  refine ⟨⟨⟨⟨⟨?_, truthful_jobName use hknown⟩, (hrequires.quiet rfl).truthful⟩, (hothers.quiet rfl).truthful⟩,
    truthful_steps s ∅ use.preSteps⟩, truthful_steps s ∅ use.postSteps⟩
  split
  · exact truthful_of_isStray_eq_false rfl
  · exact truthful_nil

theorem truthful_workflows : Truthful s (workflows s) := by
  unfold workflows
  refine truthful_append.mpr ⟨?_, truthful_of_quiet (coded_cycles.quiet rfl)⟩
  exact truthful_flatMap.mpr fun w _ => truthful_flatMap.mpr fun use _ => truthful_jobUse w use

private theorem truthful_executor (e : Executor) : Truthful s (executor s e) :=
  truthful_of_quiet ((coded_executor e).quiet rfl)

private theorem truthful_executorParameter (j : Job) (use : ExecutorUse) :
    Truthful s ((executorParameter s j use).map .finding) := by
  unfold executorParameter
  split
  · exact truthful_nil
  split
  · split
    · split
      · next name _ _ h =>
        have hknown : s.isFromUnknownOrb name = false := by
          simp only [Bool.and_eq_true] at h
          simpa using h.2
        simpa using truthful_report (.executorDefault name) use.range hknown
      · exact truthful_nil
    · exact truthful_of_isStray_eq_false rfl
  · exact truthful_nil

private theorem isFromUnknownOrb_of_splitOrbName_eq_none {name : String} (h : splitOrbName name = none) :
    s.isFromUnknownOrb name = false := by
  simp [Scope.isFromUnknownOrb, Document.isFromUnknownOrb, h]

/-- The executor that a job names is either told rightly or sought in vain. -/
theorem truthful_jobExecutor {j : Job} (hj : j ∈ s.document.jobs.values) {use : ExecutorUse}
    (huse : j.executor = some use) : Truthful s (jobExecutor s j use) := by
  have hcall : ∀ declared, Truthful s (call s j.parameters use.name use.range declared use.parameters) :=
    fun declared => truthful_append.mpr ⟨truthful_missing _ _ _ _, truthful_values s _ _ _ _⟩
  unfold jobExecutor
  split
  · exact truthful_executorParameter j use
  next hbare =>
  split
  · exact truthful_nil
  next hliteral =>
  split
  · exact hcall _
  next hforeign =>
  unfold foreignExecutor
  split
  · next orb entity _ hsplit =>
    split
    · next info hinfo =>
      split
      · exact hcall _
      · next hnone =>
        -- No check has asked here whether the name leads into an unknown orb.
        simp only [Bool.or_eq_true, not_or] at hliteral
        refine truthful_finding.mpr fun _ => .sought hj huse ?_
        exact ⟨⟨by simpa using hbare, by simpa using hliteral.2⟩, hforeign, hsplit, info, hinfo, hnone⟩
    · split
      · exact truthful_of_isStray_eq_false rfl
      · exact truthful_nil
  · exact truthful_of_isStray_eq_false rfl
  · next hsplit =>
    simpa using truthful_report (.executor use.name) use.nameRange (isFromUnknownOrb_of_splitOrbName_eq_none hsplit)

theorem truthful_jobs : Truthful s (jobs s) := by
  unfold jobs
  refine truthful_flatMap.mpr fun j hj => ?_
  have hadvice : Coded [.ignoredConfiguration, .unused] (ignoredSteps j ++ unusedJob s j ++ untoldResults j) := by
    simp only [coded_append]
    exact ⟨⟨(coded_ignoredSteps j).mono (by simp), (coded_unusedJob j).mono (by simp)⟩,
      (coded_untoldResults j).mono (by simp)⟩
  have hlimits : Coded [.invalidRetention] (parallelism j ++ retention j) :=
    coded_append.mpr ⟨(coded_parallelism j).mono (by simp), coded_retention j⟩
  unfold job
  simp only [truthful_append]
  refine ⟨⟨⟨⟨⟨((coded_jobType j).quiet rfl).truthful, truthful_steps s _ _⟩, (hadvice.quiet rfl).truthful⟩, ?_⟩,
    (hlimits.quiet rfl).truthful⟩, ?_⟩
  · split
    · next use huse => exact truthful_jobExecutor hj huse
    · exact truthful_nil
  · split
    · exact truthful_executor _
    · exact truthful_nil

theorem truthful_commands : Truthful s (commands s) :=
  truthful_flatMap.mpr fun c _ =>
    truthful_append.mpr ⟨truthful_steps s _ _, ((coded_unusedCommand c).quiet rfl).truthful⟩

theorem truthful_executors : Truthful s (executors s) := truthful_of_quiet (coded_executors.quiet rfl)

theorem truthful_anchors : Truthful s (anchors s) := truthful_of_quiet (coded_anchors.quiet rfl)

theorem truthful_shape (loader : Load.Loader) (schema : Option Schema) : Truthful s (shape loader schema s) :=
  truthful_of_quiet ((coded_shape loader schema).quiet rfl)

theorem truthful_references : Truthful s (references s) := truthful_of_quiet (coded_references.quiet rfl)

theorem truthful_orbs : Truthful s (orbs s) := truthful_of_quiet (coded_orbs.quiet rfl)

theorem truthful_names : Truthful s (names s) := truthful_of_quiet (coded_names.quiet rfl)

end PipelineLint.Check
