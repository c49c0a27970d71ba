import PipelineLint.Concrete.Host
import PipelineLint.Proofs.Check.Said

/-! # Warnings about unused things

Whether a thing is used is found out by a search among steps and the steps inside them (`nested_search_exact`). All
warnings about unused things are of one kind and differ in what they say. Of the checks only four have such warnings;
all others drop out where they are counted.

A job is needed where a workflow uses it or where another job or a command invokes it, at any depth of their steps. The
check looks for its name among the steps of jobs only, but there among all of them: it does not see the steps of
commands, and a job's own steps and steps of another kind with the name of the job pass for uses of it.
-/

namespace PipelineLint

namespace Check

open Step

theorem anyStep_eq_true_iff {p : Step → Bool} {sts : List Step} :
    anyStep p sts = true ↔ ∃ st, Among st sts ∧ p st = true := by
  simp only [anyStep, List.any_eq_true, mem_walk_iff, Among]
  constructor
  · rintro ⟨st, hst, inner, hinner, hp⟩
    exact ⟨inner, ⟨st, hst, hinner⟩, hp⟩
  · rintro ⟨inner, ⟨st, hst, hinner⟩, hp⟩
    exact ⟨st, hst, inner, hinner, hp⟩

/-- A step in one of several lists passes a test, at any depth. -/
theorem any_anyStep_iff {p : Step → Bool} {lists : List (List Step)} :
    lists.any (anyStep p) = true ↔ ∃ st, (∃ sts ∈ lists, Among st sts) ∧ p st = true := by
  simp only [List.any_eq_true, anyStep_eq_true_iff]
  constructor
  · rintro ⟨sts, hsts, st, hst, hp⟩
    exact ⟨st, ⟨sts, hsts, hst⟩, hp⟩
  · rintro ⟨st, ⟨sts, hsts, hst⟩, hp⟩
    exact ⟨sts, hsts, st, hst, hp⟩

/-- A search among steps finds a step just if one of them has the property or holds one that has it, at any depth. A
walk visits each step below its root once, at its address, and no step before those around it. -/
theorem nested_search_exact :
    (∀ (p : Step → Bool) (sts : List Step), anyStep p sts = true ↔
      ∃ st ∈ sts, ∃ path inner, StandsAt inner path st ∧ p inner = true) ∧
    ∀ st : Step, ∃ visits : List (List Nat × Step), visits.map Prod.snd = st.walk ∧
      Addresses.Exact (fun path inner => StandsAt inner path st) visits ∧
      visits.Pairwise fun first later => ¬ later.1 <+: first.1 := by
  refine ⟨fun p sts => ?_, fun st => ⟨st.visits, map_snd_visits st, exact_visits st, (exact_visits st).outer_first⟩⟩
  simp only [anyStep_eq_true_iff, Among, inside_iff_exists_standsAt]
  constructor
  · rintro ⟨inner, ⟨st, hst, path, hstands⟩, hp⟩
    exact ⟨st, hst, path, inner, hstands, hp⟩
  · rintro ⟨st, hst, path, inner, hstands, hp⟩
    exact ⟨inner, ⟨st, hst, path, hstands⟩, hp⟩

def invokes (name : String) : Step → Bool
  | .named call => call.name == name
  | _ => false

theorem invokes_eq_true_iff {name : String} {st : Step} :
    invokes name st = true ↔ st.name = name ∧ ∃ call, st = .named call := by
  cases st <;> simp [invokes, Step.name]

/-- The finding says of something unused what the message says. -/
def isUnusedAs (message : String) (d : Diagnostic) : Bool := d.code == some .unused && d.message == message

variable {s : Scope} {message : String}

@[simp] theorem isUnusedAs_unused (severity : Severity) (text : String) (range : Range) :
    isUnusedAs message (unused severity text range) = (text == message) := by
  simp [isUnusedAs, unused, Diagnostic.withTag]

theorem isUnusedAs_eq_false {codes : List Code} {d : Diagnostic} (h : isOf codes d = true)
    (hcodes : codes.any (· == .unused) = false) : isUnusedAs message d = false := by
  cases hmessage : isUnusedAs message d with
  | false => rfl
  | true =>
    have hcode : d.code = some .unused := by
      simp only [isUnusedAs, Bool.and_eq_true, beq_iff_eq] at hmessage
      exact hmessage.1
    have hnone := Coded.any_eq_false (coded_cons.mpr ⟨h, coded_nil⟩) hcodes d (List.mem_singleton_self d)
    simp [hcode] at hnone

theorem Coded.filter_eq_nil {codes : List Code} {ds : List Diagnostic} (h : Coded codes ds)
    (hcodes : codes.any (· == .unused) = false) : ds.filter (isUnusedAs message) = [] :=
  List.filter_eq_nil_iff.mpr fun d hd => by simp [isUnusedAs_eq_false (h d hd) hcodes]

/-- All warnings about unused things of a document and the bodies of its local orbs. -/
def unusedWarnings (s : Scope) : List Diagnostic :=
  findings (anchors s) ++ s.document.jobs.values.flatMap (unusedJob s) ++
    s.document.commands.values.flatMap (unusedCommand s) ++ s.document.orbs.values.flatMap (unusedOrb s) ++
    s.document.localOrbs.flatMap fun o =>
      o.document.jobs.values.flatMap (unusedJob (s.inOrb o)) ++
        o.document.commands.values.flatMap (unusedCommand (s.inOrb o))

theorem filter_anchors_eq_nil (h : message ≠ "Anchor never used") :
    (findings (anchors s)).filter (isUnusedAs message) = [] := by
  have hall : ∀ d ∈ findings (anchors s), isUnusedAs message d = ("Anchor never used" == message) := by
    unfold anchors
    split
    · rw [findings_map]
      rintro _ hd
      obtain ⟨a, -, rfl⟩ := List.mem_map.mp hd
      exact isUnusedAs_unused _ _ _
    · simp
  refine List.filter_eq_nil_iff.mpr fun d hd => ?_
  simpa [hall d hd] using Ne.symm h

theorem filter_unusedCommand_eq_nil (h : message ≠ "Command is unused") (c : Command) :
    (unusedCommand s c).filter (isUnusedAs message) = [] := by
  unfold unusedCommand
  split
  · split <;> simp [Ne.symm h]
  · rfl

private theorem filter_job (j : Job) : (findings (job s j)).filter (isUnusedAs message) =
    (unusedJob s j).filter (isUnusedAs message) := by
  have htype : (jobType j).filter (isUnusedAs message) = [] := (coded_jobType j).filter_eq_nil rfl
  have hsteps : (findings (steps s j.parameters j.steps)).filter (isUnusedAs message) = [] :=
    (coded_steps _ _).filter_eq_nil rfl
  have hignored : (ignoredSteps j).filter (isUnusedAs message) = [] := (coded_ignoredSteps j).filter_eq_nil rfl
  have huntold : (untoldResults j).filter (isUnusedAs message) = [] := (coded_untoldResults j).filter_eq_nil rfl
  have hexecutor : ∀ use, (findings (jobExecutor s j use)).filter (isUnusedAs message) = [] :=
    fun use => (coded_jobExecutor j use).filter_eq_nil rfl
  have hparallelism : (parallelism j).filter (isUnusedAs message) = [] := (coded_parallelism j).filter_eq_nil rfl
  have hretention : (retention j).filter (isUnusedAs message) = [] := (coded_retention j).filter_eq_nil rfl
  have hinline : ∀ e, (findings (executor s e)).filter (isUnusedAs message) = [] :=
    fun e => (coded_executor e).filter_eq_nil rfl
  unfold job
  cases j.executor <;> cases j.inlineExecutor <;>
    simp only [findings_append, findings_map_finding, List.filter_append, htype, hsteps, hignored, huntold, hexecutor,
      hparallelism, hretention, hinline, List.nil_append, List.append_nil]

theorem filter_jobs : (findings (jobs s)).filter (isUnusedAs message) =
    (s.document.jobs.values.flatMap (unusedJob s)).filter (isUnusedAs message) := by
  simp only [jobs, findings_flatMap, List.filter_flatMap, filter_job]

theorem filter_commands : (findings (commands s)).filter (isUnusedAs message) =
    (s.document.commands.values.flatMap (unusedCommand s)).filter (isUnusedAs message) := by
  have hsteps : ∀ c : Command, (findings (steps s c.parameters c.steps)).filter (isUnusedAs message) = [] :=
    fun c => (coded_steps _ _).filter_eq_nil rfl
  simp only [commands, findings_flatMap, List.filter_flatMap, findings_append, findings_map_finding, List.filter_append,
    hsteps, List.nil_append]

private theorem filter_orbs : (findings (orbs s)).filter (isUnusedAs message) =
    (s.document.orbs.values.flatMap (unusedOrb s)).filter (isUnusedAs message) := by
  have horb : ∀ use, (orb s use).filter (isUnusedAs message) = (unusedOrb s use).filter (isUnusedAs message) := by
    intro use
    obtain ⟨rest, heq, hrest⟩ := orb_eq_unusedOrb_append (s := s) use
    rw [heq, List.filter_append, hrest.filter_eq_nil rfl, List.append_nil]
  simp only [orbs, findings_map_finding, List.filter_flatMap, horb]

private theorem filter_orbBody : (findings (orbBody s)).filter (isUnusedAs message) =
    (s.document.jobs.values.flatMap (unusedJob s) ++
      s.document.commands.values.flatMap (unusedCommand s)).filter (isUnusedAs message) := by
  have hexecutors : (findings (executors s)).filter (isUnusedAs message) = [] := coded_executors.filter_eq_nil rfl
  simp only [orbBody, findings_append, List.filter_append, filter_jobs, filter_commands, hexecutors, List.append_nil]

/-- What a check says about unused things are these warnings, in this order. -/
theorem filter_document (loader : Load.Loader) (schema : Option Schema) :
    (findings (document loader schema s)).filter (isUnusedAs message) =
      (unusedWarnings s).filter (isUnusedAs message) := by
  have hworkflows : (findings (workflows s)).filter (isUnusedAs message) = [] := coded_workflows.filter_eq_nil rfl
  have hexecutors : (findings (executors s)).filter (isUnusedAs message) = [] := coded_executors.filter_eq_nil rfl
  have hnames : (findings (names s)).filter (isUnusedAs message) = [] := coded_names.filter_eq_nil rfl
  have hshape : (findings (shape loader schema s)).filter (isUnusedAs message) = [] :=
    (coded_shape loader schema).filter_eq_nil rfl
  have hreferences : (findings (references s)).filter (isUnusedAs message) = [] := coded_references.filter_eq_nil rfl
  simp only [document, unusedWarnings, findings_append, findings_flatMap, List.filter_append, List.filter_flatMap,
    hworkflows, filter_jobs, filter_commands, filter_orbs, hexecutors, hnames, hshape, hreferences, filter_orbBody,
    List.append_nil]
  rfl

end Check

namespace Analyzer

open Check

/-- An analysis says about unused things what the checks say about them. -/
theorem exists_found (a : Analyzer) (session : Session) (d : Document) :
    ∃ (scope : Check.Scope) (found : List Diagnostic),
      (a.check session d).1 = d.addFindings found ∧
      scope.settings = a.settings ∧ scope.document = d ∧ scope.enclosing = none ∧
      ∀ message, found.filter (isUnusedAs message) = (unusedWarnings scope).filter (isUnusedAs message) := by
  let fetched := a.fetchDeclared session d
  refine ⟨{ settings := a.settings, caches := fetched.2.caches, failures := fetched.1, document := d }, _, rfl, rfl, rfl,
    rfl, fun message => ?_⟩
  exact (a.filter_answers _ (fun e he => isUnusedAs_eq_false he rfl) _).trans (filter_document _ _)

end Analyzer

namespace Check

open Step

def UsedByWorkflow (d : Document) (name : String) : Prop := ∃ use ∈ jobUses d, use.jobName = name

def UsedByOtherJob (d : Document) (name : String) : Prop :=
  ∃ j ∈ d.jobs.values, j.name ≠ name ∧ ∃ st, Among st j.steps ∧ invokes name st = true

def UsedByCommand (d : Document) (name : String) : Prop :=
  ∃ c ∈ d.commands.values, ∃ st, Among st c.steps ∧ invokes name st = true

/-- A step of a job has the name of the job and is no use of it: the job is the one that the step stands in, or the
step invokes nothing. -/
def Mistaken (d : Document) (name : String) : Prop :=
  ∃ j ∈ d.jobs.values, ∃ st, Among st j.steps ∧ st.name = name ∧ (j.name = name ∨ ∀ call, st ≠ .named call)

def Needed (d : Document) (name : String) : Prop :=
  UsedByWorkflow d name ∨ UsedByOtherJob d name ∨ UsedByCommand d name

section Decidable

variable (d : Document) (name : String)

instance : Decidable (UsedByWorkflow d name) :=
  inferInstanceAs (Decidable (∃ use ∈ jobUses d, use.jobName = name))

instance : Decidable (UsedByOtherJob d name) :=
  decidable_of_iff (∃ j ∈ d.jobs.values, j.name ≠ name ∧ anyStep (invokes name) j.steps = true) <| by
    simp only [UsedByOtherJob, anyStep_eq_true_iff]

instance : Decidable (UsedByCommand d name) :=
  decidable_of_iff (∃ c ∈ d.commands.values, anyStep (invokes name) c.steps = true) <| by
    simp only [UsedByCommand, anyStep_eq_true_iff]

instance : Decidable (Needed d name) :=
  inferInstanceAs (Decidable (UsedByWorkflow d name ∨ UsedByOtherJob d name ∨ UsedByCommand d name))

end Decidable

variable {d : Document} {name : String}

/-- Among the steps of a job, those with the name of a job invoke it or are mistaken for it. -/
theorem anyStep_name_iff {j : Job} : anyStep (·.name == name) j.steps = true ↔
    (j.name ≠ name ∧ ∃ st, Among st j.steps ∧ invokes name st = true) ∨
      ∃ st, Among st j.steps ∧ st.name = name ∧ (j.name = name ∨ ∀ call, st ≠ .named call) := by
  simp only [anyStep_eq_true_iff, beq_iff_eq, invokes_eq_true_iff]
  constructor
  · rintro ⟨st, hst, hname⟩
    by_cases hown : j.name = name
    · exact .inr ⟨st, hst, hname, .inl hown⟩
    by_cases hcall : ∃ call, st = .named call
    · exact .inl ⟨hown, st, hst, hname, hcall⟩
    · exact .inr ⟨st, hst, hname, .inr (not_exists.mp hcall)⟩
  · rintro (⟨-, st, hst, hname, -⟩ | ⟨st, hst, hname, -⟩) <;> exact ⟨st, hst, hname⟩

theorem isJobUsed_iff :
    isJobUsed d name = true ↔ UsedByWorkflow d name ∨ UsedByOtherJob d name ∨ Mistaken d name := by
  have hsteps : (jobSteps d).any (anyStep (·.name == name)) = true ↔ UsedByOtherJob d name ∨ Mistaken d name := by
    simp only [jobSteps, List.any_map, List.any_eq_true, Function.comp_apply, anyStep_name_iff, UsedByOtherJob, Mistaken,
      and_or_left, exists_or]
  have huses : (jobUses d).any (·.jobName == name) = true ↔ UsedByWorkflow d name := by
    simp only [List.any_eq_true, beq_iff_eq, UsedByWorkflow]
  rw [isJobUsed, Bool.or_eq_true, hsteps, huses, or_comm]

/-- The warning about a job that nothing uses. -/
def unusedJobWarning (j : Job) : Diagnostic := unused .warning "Job is unused" j.nameRange

variable {s : Scope}

/-- Of the warnings about unused things those about jobs are one for each job of the document for which no use is
found. The bodies of local orbs have none. -/
theorem filter_unusedWarnings_jobs (henclosing : s.enclosing = none) :
    (unusedWarnings s).filter (isUnusedAs "Job is unused") =
      if s.settings.findsUnused then
        (s.document.jobs.values.filter fun j => !isJobUsed s.document j.name).map unusedJobWarning
      else [] := by
  have hanchors : (findings (anchors s)).filter (isUnusedAs "Job is unused") = [] := filter_anchors_eq_nil (by decide)
  have hcommands (t : Scope) (c : Command) : (unusedCommand t c).filter (isUnusedAs "Job is unused") = [] :=
    filter_unusedCommand_eq_nil (by decide) c
  have horbs (use : OrbUse) : (unusedOrb s use).filter (isUnusedAs "Job is unused") = [] := by
    unfold unusedOrb
    split <;> simp
  have hbodies (o : LocalOrb) (j : Job) : unusedJob (s.inOrb o) j = [] := by
    simp [unusedJob, Scope.inOrb, Scope.isLocalOrb]
  have hjobs (j : Job) : (unusedJob s j).filter (isUnusedAs "Job is unused") =
      if s.settings.findsUnused && !isJobUsed s.document j.name then [unusedJobWarning j] else [] := by
    unfold unusedJob
    split <;> simp_all [Scope.isLocalOrb, unusedJobWarning]
  have hnone {α β : Type} (xs : List α) : (xs.flatMap fun _ => []) = ([] : List β) := by simp
  simp only [unusedWarnings, List.filter_append, List.filter_flatMap, hanchors, hjobs, hcommands, horbs, hbodies,
    List.filter_nil, hnone, List.nil_append, List.append_nil]
  rw [flatMap_ite_singleton s.settings.findsUnused (fun j => !isJobUsed s.document j.name) unusedJobWarning]

end Check

namespace Analyzer

open Check

/-- Of the findings of an analysis those that say that a job is unused are one for each job of the document, in order,
that no workflow uses and whose name no step of a job has. That is not what makes a job needed: the check takes mistaken
steps for uses and overlooks commands that invoke the job, and it errs just where only one of the two is there. -/
theorem unusedJobs_found (a : Analyzer) (session : Session) (d : Document) :
    (∃ found, (a.check session d).1 = d.addFindings found ∧
      found.filter (isUnusedAs "Job is unused") =
        if a.settings.findsUnused then (d.jobs.values.filter fun j => !isJobUsed d j.name).map unusedJobWarning
        else []) ∧
    (∀ name, isJobUsed d name = true ↔ UsedByWorkflow d name ∨ UsedByOtherJob d name ∨ Mistaken d name) ∧
    ∀ name, (isJobUsed d name = true ↔ Needed d name) ↔
      UsedByWorkflow d name ∨ UsedByOtherJob d name ∨ (Mistaken d name ↔ UsedByCommand d name) := by
  obtain ⟨scope, found, hcheck, hsettings, rfl, henclosing, hfound⟩ := a.exists_found session d
  refine ⟨⟨found, hcheck, ?_⟩, fun name => isJobUsed_iff, fun name => ?_⟩
  · rw [hfound, filter_unusedWarnings_jobs henclosing, hsettings]
  · rw [isJobUsed_iff, Needed]
    grind

/-- Whether a configuration needs a job, and what an analysis of it says about unused jobs. -/
def judged (source name : String) : Option (Bool × List Diagnostic) :=
  (Analyzer.standard.analyze {} source).1.toOption.map fun d =>
    (decide (Needed d name), d.diagnostics.filter (isUnusedAs "Job is unused"))

/-- A job that only a command invokes is needed and said to be unused. A job that is not needed passes for used where it
invokes itself, and where a step of another job that runs a shell command bears its name. -/
theorem jobs_misjudged :
    judged ("jobs:\n  build:\n    steps:\n      - checkout\n" ++
        "commands:\n  make:\n    steps:\n      - build\n") "build" =
      some (true, [unused .warning "Job is unused" ⟨⟨1, 2⟩, ⟨1, 7⟩⟩]) ∧
    judged "jobs:\n  build:\n    steps:\n      - build\n" "build" = some (false, []) ∧
    judged ("jobs:\n  build:\n    steps:\n      - checkout\n" ++
        "  check:\n    steps:\n      - run: {name: build, command: make}\n" ++
        "workflows:\n  main:\n    jobs:\n      - check\n") "build" = some (false, []) := by
  decide +kernel

end Analyzer

end PipelineLint
