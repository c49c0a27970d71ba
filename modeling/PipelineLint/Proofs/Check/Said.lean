import PipelineLint.Proofs.Check.Codes
import PipelineLint.Proofs.Model.Inside

/-! # What is said about steps

The check of a step looks at the step, at the values that it assigns, and at the steps inside these, in one recursion.
`Said` and `SaidOfValue` list what can be said at each place, and every notice about a step is one of these about the
step or about a step inside it. Whoever looks for findings of some kind looks through these lists and needs no
recursion.
-/

namespace PipelineLint.Check

open Step

/-- What is said about a value, the steps inside it apart. -/
inductive SaidOfValue (s : Scope) (usable : Parameters) : Notice → Prop where
  | undeclared (name entity : String) (range : Range) : SaidOfValue s usable (.finding (undeclared name entity range))
  | mismatch (p : Parameter) (entity : String) (range : Range) :
      SaidOfValue s usable (.finding (typeMismatch p entity range))
  | reference {p : Parameter} {entity : String} {range : Range} {text : String} {d : Diagnostic}
      (found : d ∈ referenceValue s usable p entity range text) : SaidOfValue s usable (.finding d)
  | plain {p : Parameter} {entity : String} {range : Range} {v : Value} {d : Diagnostic}
      (found : d ∈ plainValue s p entity range v) : SaidOfValue s usable (.finding d)
  | item {name : String} {range : Range} {d : Diagnostic} (found : d ∈ stepName s name range) :
      SaidOfValue s usable (.finding d)

/-- What is said about a step, the steps inside it apart. -/
inductive Said (s : Scope) (usable : Parameters) : Step → Notice → Prop where
  | run {r : Run} {n : Notice} (found : n ∈ run s usable r) : Said s usable (.run r) n
  | place {range valueRange : Range} {name value : String} {d : Diagnostic}
      (found : d ∈ stepsPlace s usable value valueRange) :
      Said s usable (.steps range name value valueRange) (.finding d)
  | unknown {c : Invocation} (known : s.isFromUnknownOrb c.name = false) :
      Said s usable (.named c)
        (.finding (.error .undefinedCommand c.range ("Cannot find declaration for step " ++ c.name)))
  | path {c : Invocation} : Said s usable (.named c)
      (.finding (.error .missingValue c.range "Path must be specified for `store_test_results` step"))
  | missing {c : Invocation} {declared : Parameters} {d : Diagnostic}
      (defined : s.definedParameters? c.name = some declared)
      (found : d ∈ missing declared c.name c.range (Assignments.contains c.parameters)) :
      Said s usable (.named c) (.finding d)
  | value {c : Invocation} {n : Notice} (found : SaidOfValue s usable n) : Said s usable (.named c) n

/-- What is said about values that some steps stand inside. -/
def SaidWithin (s : Scope) (usable : Parameters) (inside : Step → Prop) (n : Notice) : Prop :=
  SaidOfValue s usable n ∨ ∃ inner, inside inner ∧ Said s usable inner n

theorem SaidWithin.mono {s : Scope} {usable : Parameters} {inside inside' : Step → Prop} {n : Notice}
    (h : SaidWithin s usable inside n) (hinside : ∀ inner, inside inner → inside' inner) :
    SaidWithin s usable inside' n :=
  h.imp id fun ⟨inner, hinner, hsaid⟩ => ⟨inner, hinside inner hinner, hsaid⟩

variable {s : Scope} {usable : Parameters} {n : Notice}

private theorem saidWithin_of_mem_plain {p : Parameter} {entity : String} {range : Range} {v : Value}
    {inside : Step → Prop}
    (h : n ∈ (plainValue s p entity range v).map .finding) : SaidWithin s usable inside n := by
  obtain ⟨d, hd, rfl⟩ := List.mem_map.mp h
  exact .inl (.plain hd)

private theorem saidWithin_of_mem_mismatch {p : Parameter} {entity : String} {range : Range} {inside : Step → Prop}
    (h : n ∈ [Notice.finding (typeMismatch p entity range)]) : SaidWithin s usable inside n := by
  obtain rfl := List.mem_singleton.mp h
  exact .inl (.mismatch p entity range)

mutual
/-- Every notice about a step is about a step inside it. -/
theorem said_of_mem_step : (st : Step) → n ∈ step s usable st → ∃ inner, Inside inner st ∧ Said s usable inner n
  | .run r, h => by
    rw [step] at h
    exact ⟨_, .self, .run h⟩
  | .steps _ _ value valueRange, h => by
    rw [step] at h
    obtain ⟨d, hd, rfl⟩ := List.mem_map.mp h
    exact ⟨_, .self, .place hd⟩
  | .named ⟨name, range, parameters, parametersRange⟩, h => by
    rw [step] at h
    split at h
    · cases h
    next hchecked =>
    have hknown : s.isFromUnknownOrb name = false := by
      simp only [Bool.or_eq_true, not_or] at hchecked
      simpa using hchecked.2
    split at h
    · obtain rfl := List.mem_singleton.mp h
      exact ⟨_, .self, .unknown (c := ⟨name, range, parameters, parametersRange⟩) hknown⟩
    split at h
    · obtain rfl := List.mem_singleton.mp h
      exact ⟨_, .self, .path (c := ⟨name, range, parameters, parametersRange⟩)⟩
    split at h
    · cases h
    split at h
    · cases h
    next declared hdefined =>
    obtain h | h := List.mem_append.mp h
    · obtain ⟨d, hd, rfl⟩ := List.mem_map.mp h
      exact ⟨_, .self, .missing hdefined hd⟩
    · obtain hvalue | ⟨inner, ⟨a, ha, hinside⟩, hsaid⟩ := saidWithin_of_mem_values name declared parameters h
      · exact ⟨_, .self, .value hvalue⟩
      · exact ⟨inner, .parameter ha hinside, hsaid⟩
  | .checkout .., h | .setupRemoteDocker .., h | .saveCache .., h | .restoreCache .., h | .storeArtifacts .., h
  | .storeTestResults .., h | .persistToWorkspace .., h | .attachWorkspace .., h | .addSshKeys .., h => by
    simp [step] at h
theorem said_of_mem_steps :
    (sts : List Step) → n ∈ steps s usable sts → ∃ inner, Among inner sts ∧ Said s usable inner n
  | [], h => by simp [steps] at h
  | st :: sts, h => by
    rw [steps] at h
    obtain h | h := List.mem_append.mp h
    · obtain ⟨inner, hinside, hsaid⟩ := said_of_mem_step st h
      exact ⟨inner, ⟨st, List.mem_cons_self, hinside⟩, hsaid⟩
    · obtain ⟨inner, ⟨st', hst', hinside⟩, hsaid⟩ := said_of_mem_steps sts h
      exact ⟨inner, ⟨st', List.mem_cons_of_mem _ hst', hinside⟩, hsaid⟩
theorem saidWithin_of_mem_values (entity : String) (declared : Parameters) :
    (as : List Assignment) → n ∈ values s usable entity declared as →
      SaidWithin s usable (fun inner => ∃ a ∈ as, InsideValue inner a.value) n
  | [], h => by simp [values] at h
  | ⟨name, v, valueRange, range⟩ :: as, h => by
    rw [values] at h
    obtain h | h := List.mem_append.mp h
    · split at h
      · refine (saidWithin_of_mem_value _ entity valueRange v h).mono fun inner hinside => ?_
        exact ⟨_, List.mem_cons_self, hinside⟩
      · obtain rfl := List.mem_singleton.mp h
        exact .inl (.undeclared name entity range)
    · refine (saidWithin_of_mem_values entity declared as h).mono fun inner ⟨a, ha, hinside⟩ => ?_
      exact ⟨a, List.mem_cons_of_mem _ ha, hinside⟩
theorem saidWithin_of_mem_value (p : Parameter) (entity : String) (range : Range) :
    (v : Value) → n ∈ value s usable p entity range v → SaidWithin s usable (InsideValue · v) n
  | .text text, h => by
    rw [value] at h
    split at h
    · obtain ⟨d, hd, rfl⟩ := List.mem_map.mp h
      exact .inl (.reference hd)
    split at h
    · cases h
    split at h
    · exact saidWithin_of_mem_mismatch h
    · exact saidWithin_of_mem_plain h
  | .alias _, h => by simp [value] at h
  | .steps given, h => by
    rw [value] at h
    split at h
    · obtain ⟨inner, ⟨st, hst, hinside⟩, hsaid⟩ := said_of_mem_steps given h
      exact .inr ⟨inner, .steps hst hinside, hsaid⟩
    · exact saidWithin_of_mem_plain h
  | .list items, h => by
    rw [value] at h
    split at h
    · exact (saidWithin_of_mem_stepItems items h).mono fun inner ⟨a, ha, hinside⟩ => .list ha hinside
    · exact saidWithin_of_mem_plain h
  | .truth _, h | .number _, h | .map _, h => by
    rw [value] at h
    · split at h
      · exact saidWithin_of_mem_mismatch h
      · exact saidWithin_of_mem_plain h
    all_goals nofun
theorem saidWithin_of_mem_stepItems :
    (as : List Assignment) → n ∈ stepItems s usable as →
      SaidWithin s usable (fun inner => ∃ a ∈ as, InsideValue inner a.value) n
  | [], h => by simp [stepItems] at h
  | ⟨_, v, valueRange, _⟩ :: as, h => by
    rw [stepItems] at h
    obtain h | h := List.mem_append.mp h
    · exact (saidWithin_of_mem_stepItem valueRange v h).mono fun inner hinside => ⟨_, List.mem_cons_self, hinside⟩
    · refine (saidWithin_of_mem_stepItems as h).mono fun inner ⟨a, ha, hinside⟩ => ?_
      exact ⟨a, List.mem_cons_of_mem _ ha, hinside⟩
theorem saidWithin_of_mem_stepItem (range : Range) :
    (v : Value) → n ∈ stepItem s usable range v → SaidWithin s usable (InsideValue · v) n
  | .steps given, h => by
    rw [stepItem] at h
    obtain ⟨inner, ⟨st, hst, hinside⟩, hsaid⟩ := said_of_mem_steps given h
    exact .inr ⟨inner, .steps hst hinside, hsaid⟩
  | .text name, h => by
    rw [stepItem] at h
    obtain ⟨d, hd, rfl⟩ := List.mem_map.mp h
    exact .inl (.item hd)
  | .truth _, h | .number _, h | .list _, h | .map _, h | .alias _, h => by simp [stepItem] at h
end

/-- The kinds of findings about steps and the values that they assign. -/
def stepCodes : List Code :=
  [.deprecatedKey, .invalidRun, .typeMismatch, .undefinedCommand, .undefinedExecutor, .missingValue, .missingParameter,
    .undefinedParameter, .invalidValue]

theorem SaidOfValue.isOf {usable : Parameters} {d : Diagnostic} (h : SaidOfValue s usable (.finding d)) :
    isOf stepCodes d = true := by
  cases h with
  | undeclared => rfl
  | mismatch => rfl
  | reference found => exact (coded_referenceValue _ _ _ _ _).mono (by simp [stepCodes]) d found
  | plain found => exact (coded_plainValue _ _ _ _).mono (by simp [stepCodes]) d found
  | item found => exact (coded_stepName _ _).mono (by simp [stepCodes]) d found

theorem Said.isOf {usable : Parameters} {st : Step} {d : Diagnostic} (h : Said s usable st (.finding d)) :
    isOf stepCodes d = true := by
  cases h with
  | run found => exact (coded_run _ _).mono (by simp [stepCodes]) d (mem_findings_iff.mpr found)
  | place found => exact (coded_stepsPlace _ _ _).mono (by simp [stepCodes]) d found
  | unknown => rfl
  | path => rfl
  | missing defined found => exact (coded_missing _ _ _ _).mono (by simp [stepCodes]) d found
  | value found => exact found.isOf

theorem coded_steps (usable : Parameters) (sts : List Step) : Coded stepCodes (findings (steps s usable sts)) := by
  intro d hd
  obtain ⟨_, _, hsaid⟩ := said_of_mem_steps sts (mem_findings_iff.mp hd)
  exact hsaid.isOf

theorem SaidWithin.isOf {usable : Parameters} {inside : Step → Prop} {d : Diagnostic}
    (h : SaidWithin s usable inside (.finding d)) : isOf stepCodes d = true := by
  obtain hvalue | ⟨_, _, hsaid⟩ := h
  · exact hvalue.isOf
  · exact hsaid.isOf

theorem coded_values (usable : Parameters) (entity : String) (declared : Parameters) (as : List Assignment) :
    Coded stepCodes (findings (values s usable entity declared as)) :=
  fun _ hd => (saidWithin_of_mem_values entity declared as (mem_findings_iff.mp hd)).isOf

private theorem coded_value (usable : Parameters) (p : Parameter) (entity : String) (range : Range) (v : Value) :
    Coded stepCodes (findings (value s usable p entity range v)) :=
  fun _ hd => (saidWithin_of_mem_value p entity range v (mem_findings_iff.mp hd)).isOf

private theorem coded_call (usable : Parameters) (entity : String) (range : Range) (declared : Parameters)
    (given : Assignments) : Coded stepCodes (findings (call s usable entity range declared given)) := by
  simp only [call, findings_append, findings_map_finding, coded_append]
  exact ⟨(coded_missing _ _ _ _).mono (by simp [stepCodes]), coded_values _ _ _ _⟩

private theorem coded_matrixValue (entity : String) (declared : Parameters) (a : Assignment) :
    Coded stepCodes (findings (matrixValue s entity declared a)) := by
  unfold matrixValue
  split
  · simp [stepCodes]
  split
  · simp only [findings_flatMap, coded_flatMap]
    exact fun item _ => coded_value _ _ _ _ _
  · exact coded_nil
  · simp [stepCodes]

/-- The kinds of findings about the name and the parameters of a job that a workflow uses. -/
def jobNameCodes : List Code := stepCodes ++ [.undefinedJob]

theorem coded_jobName (use : JobUse) : Coded jobNameCodes (findings (jobName s use)) := by
  unfold jobName
  split
  · split
    · simp only [jobUseParameters, findings_append, findings_map_finding, findings_flatMap, coded_append, coded_flatMap]
      exact ⟨⟨(coded_missing _ _ _ _).mono (by simp [jobNameCodes, stepCodes]),
        (coded_values _ _ _ _).mono (by simp [jobNameCodes])⟩,
        fun a _ => (coded_matrixValue _ _ a).mono (by simp [jobNameCodes])⟩
    · exact coded_nil
  · simp [jobNameCodes]

/-- The kinds of findings about a job that a workflow uses. -/
def jobUseCodes : List Code := stepCodes ++ [.undefinedJob, .undefinedRequirement, .undefinedContext]

theorem coded_jobUse (w : Workflow) (use : JobUse) : Coded jobUseCodes (findings (jobUse s w use)) := by
  have hsteps : ∀ sts, Coded jobUseCodes (findings (steps s ∅ sts)) :=
    fun sts => (coded_steps ∅ sts).mono (by simp [jobUseCodes])
  have hrequirement : ∀ r, Coded jobUseCodes (requirement w r) :=
    fun r => (coded_requirement w r).mono (by simp [jobUseCodes, stepCodes])
  have hreruns : ∀ count, Coded jobUseCodes (jobReruns count) :=
    fun count => (coded_jobReruns count).mono (by simp [jobUseCodes, stepCodes])
  have hcontext : ∀ c, Coded jobUseCodes (context s c) :=
    fun c => (coded_context c).mono (by simp [jobUseCodes])
  have hname : Coded jobUseCodes (findings (jobName s use)) :=
    (coded_jobName use).mono (by simp [jobNameCodes, jobUseCodes])
  unfold jobUse
  split
  · exact coded_nil
  split
  · exact coded_nil
  · cases use.type <;> simp +decide [hsteps, hrequirement, hreruns, hcontext, hname]

/-- The kinds of findings about workflows. -/
def workflowCodes : List Code :=
  stepCodes ++ [.undefinedJob, .undefinedRequirement, .undefinedContext, .dependencyCycle]

theorem coded_workflows : Coded workflowCodes (findings (workflows s)) := by
  simp only [workflows, findings_append, findings_flatMap, coded_append, coded_flatMap]
  exact ⟨fun w _ use _ => (coded_jobUse w use).mono (by simp [jobUseCodes, workflowCodes]),
    coded_cycles.mono (by simp [workflowCodes])⟩

/-- The kinds of findings about the executors that jobs name. -/
def jobExecutorCodes : List Code := stepCodes ++ [.undefinedOrb, .orbUnavailable]

theorem coded_jobExecutor (j : Job) (use : ExecutorUse) :
    Coded jobExecutorCodes (findings (jobExecutor s j use)) := by
  have hcall : ∀ declared, Coded jobExecutorCodes
      (findings (call s j.parameters use.name use.range declared use.parameters)) :=
    fun declared => (coded_call _ _ _ _ _).mono (by simp [jobExecutorCodes])
  have hparameter : Coded jobExecutorCodes (executorParameter s j use) :=
    (coded_executorParameter j use).mono (by simp [jobExecutorCodes, stepCodes])
  unfold jobExecutor foreignExecutor
  repeat' split
  all_goals simp +decide [hcall, hparameter]

/-- The kinds of findings about jobs. -/
def jobCodes : List Code :=
  jobExecutorCodes ++ executorCodes ++ [.unused, .invalidJobType, .ignoredConfiguration, .invalidRetention]

private theorem coded_job (j : Job) : Coded jobCodes (findings (job s j)) := by
  have hexecutor : ∀ use, Coded jobCodes (findings (jobExecutor s j use)) :=
    fun use => (coded_jobExecutor j use).mono (by simp [jobCodes])
  have hinline : ∀ e, Coded jobCodes (findings (executor s e)) :=
    fun e => (coded_executor e).mono (by simp [jobCodes])
  simp only [job, findings_append, findings_map_finding, coded_append]
  refine ⟨⟨⟨⟨⟨?_, ?_⟩, ⟨?_, ?_⟩, ?_⟩, ?_⟩, ?_, ?_⟩, ?_⟩
  · exact (coded_jobType j).mono (by simp [jobCodes])
  · exact (coded_steps _ _).mono (by simp [jobCodes, jobExecutorCodes])
  · exact (coded_ignoredSteps j).mono (by simp [jobCodes])
  · exact (coded_unusedJob j).mono (by simp [jobCodes])
  · exact (coded_untoldResults j).mono (by simp)
  · cases j.executor <;> simp [hexecutor]
  · exact (coded_parallelism j).mono (by simp)
  · exact (coded_retention j).mono (by simp [jobCodes])
  · cases j.inlineExecutor <;> simp [hinline]

theorem coded_jobs : Coded jobCodes (findings (jobs s)) := by
  simp only [jobs, findings_flatMap, coded_flatMap]
  exact fun j _ => coded_job j

theorem coded_commands : Coded jobCodes (findings (commands s)) := by
  simp only [commands, findings_flatMap, findings_append, findings_map_finding, coded_flatMap, coded_append]
  exact fun c _ => ⟨(coded_steps _ _).mono (by simp [jobCodes, jobExecutorCodes]),
    (coded_unusedCommand c).mono (by simp [jobCodes])⟩

private theorem coded_orbBody : Coded jobCodes (findings (orbBody s)) := by
  simp only [orbBody, findings_append, coded_append]
  exact ⟨⟨coded_jobs, coded_commands⟩, coded_executors.mono (by simp [jobCodes])⟩

/-- The codes of findings about a document outside its workflows. -/
def otherCodes : List Code := jobCodes ++ [.orbUpdate, .nameCollision, .undecodable, .schemaViolation]

/-- Of the findings about a document those with a code that only workflows have are those about its workflows. -/
theorem filter_document_of_workflows (loader : Load.Loader) (schema : Option Schema) {code : Code}
    (hcode : otherCodes.contains code = false) :
    (findings (document loader schema s)).filter (hasCode code) = (findings (workflows s)).filter (hasCode code) := by
  have hnone {codes : List Code} {ds : List Diagnostic} (h : Coded codes ds) (hsubset : codes ⊆ otherCodes) :
      ds.filter (hasCode code) = [] := (h.mono hsubset).filter_hasCode hcode
  have hanchors : (findings (anchors s)).filter (hasCode code) = [] :=
    hnone coded_anchors (by simp [otherCodes, jobCodes])
  have hjobs : (findings (jobs s)).filter (hasCode code) = [] := hnone coded_jobs (by simp [otherCodes])
  have hcommands : (findings (commands s)).filter (hasCode code) = [] := hnone coded_commands (by simp [otherCodes])
  have horbs : (findings (orbs s)).filter (hasCode code) = [] :=
    hnone coded_orbs (by simp [otherCodes, jobCodes, jobExecutorCodes])
  have hexecutors : (findings (executors s)).filter (hasCode code) = [] :=
    hnone coded_executors (by simp [otherCodes, jobCodes])
  have hnames : (findings (names s)).filter (hasCode code) = [] := hnone coded_names (by simp [otherCodes])
  have hshape : (findings (shape loader schema s)).filter (hasCode code) = [] :=
    hnone (coded_shape loader schema) (by simp [otherCodes])
  have hreferences : (findings (references s)).filter (hasCode code) = [] :=
    hnone coded_references (by simp [otherCodes, jobCodes, jobExecutorCodes, stepCodes])
  have hbodies : (s.document.localOrbs.flatMap fun o => findings (orbBody (s.inOrb o))).filter (hasCode code) = [] :=
    hnone (coded_flatMap.mpr fun o _ => coded_orbBody) (by simp [otherCodes])
  simp only [document, findings_append, findings_flatMap, List.filter_append, hanchors, hjobs, hcommands, horbs,
    hexecutors, hnames, hshape, hreferences, hbodies, List.append_nil, List.nil_append]

/-- The steps of a document: those of its jobs and commands, and those that its workflows put around jobs. -/
def ownSteps (d : Document) : List (List Step) := jobSteps d ++ commandSteps d ++ aroundSteps d

def givenToJobs (d : Document) : Assignments := (jobUses d).flatMap fun use => use.parameters ++ use.matrix

def executorUses (d : Document) : List (Job × ExecutorUse) :=
  d.jobs.values.flatMap fun j => j.executor.toList.map fun use => (j, use)

def givenToExecutors (d : Document) : Assignments := (executorUses d).flatMap fun (_, use) => use.parameters

def StandsIn (d : Document) (st : Step) : Prop := ∃ sts ∈ ownSteps d, Among st sts

/-- A step stands in a document inside a value that is given to a job or an executor. -/
def StandsInGiven (d : Document) (st : Step) : Prop :=
  ∃ a ∈ givenToJobs d ++ givenToExecutors d, InsideValue st a.value

theorem mem_executorUses_iff {d : Document} {j : Job} {use : ExecutorUse} :
    (j, use) ∈ executorUses d ↔ j ∈ d.jobs.values ∧ j.executor = some use := by
  simp only [executorUses, List.mem_flatMap, List.mem_map, Option.mem_toList, Prod.mk.injEq]
  constructor
  · rintro ⟨j', hj, use', huse, rfl, rfl⟩
    exact ⟨hj, huse⟩
  · rintro ⟨hj, huse⟩
    exact ⟨j, hj, use, huse, rfl, rfl⟩

/-- The scopes of the check of a document: its own, and those of the bodies of its local orbs. -/
def scopes (s : Scope) : List Scope := s :: s.document.localOrbs.map s.inOrb

end PipelineLint.Check
