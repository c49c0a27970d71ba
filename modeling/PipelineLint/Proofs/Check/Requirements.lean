import PipelineLint.Concrete.Host
import PipelineLint.Proofs.Check.Cycles
import PipelineLint.Proofs.Check.Said
import PipelineLint.Proofs.Document.CallSites
import PipelineLint.Proofs.Related

/-! # Requirements

A job of a workflow can wait for jobs of the same workflow. A requirement dangles if its name is that of none of them.
The check looks at the requirements of a job after other things, and leaves early where the item has no name, where its
name leads into an orb that is not known, and where it is an approval: so a requirement that dangles is found just if
its job is none of these.

A job of a workflow waits for the jobs that it requires. A requirement is settled by the name of a job in the workflow
and also by its name in the configuration. What depends on what is noted by names in the workflow alone: so a job is
found on a cycle, or behind one, just if it is there by these names, and a circle that closes by the name of a job in
the configuration is not found.
-/

namespace PipelineLint

namespace Check

variable {s : Scope} {d : Document} {caches : Caches}

/-- No job of the workflow has the name of the requirement, there or in the configuration, and the name is written out.
-/
def Dangles (w : Workflow) (r : Requirement) : Prop :=
  (∀ use ∈ w.jobs, use.stepName ≠ r.name.text ∧ use.jobName ≠ r.name.text) ∧
    Reference.hasSubstitution r.name.text = false ∧ Reference.isPartialMatrix r.name.text = false

instance (w : Workflow) (r : Requirement) : Decidable (Dangles w r) := inferInstanceAs (Decidable (_ ∧ _ ∧ _))

def danglingRequirement (r : Requirement) : Diagnostic :=
  .error .undefinedRequirement r.name.range ("Cannot find declaration for job reference " ++ r.name.text)

/-- The check of a job in a workflow leaves before it comes to the requirements. -/
def IsPassedOver (caches : Caches) (d : Document) (use : JobUse) : Prop :=
  use.jobName = "" ∨ d.isFromUnknownOrb caches use.jobName = true ∨ ∃ type ∈ use.type, type.text = approvalType

instance (use : JobUse) : Decidable (IsPassedOver caches d use) := inferInstanceAs (Decidable (_ ∨ _ ∨ _))

/-- A finding for each requirement of a document that dangles: workflow by workflow, job by job. -/
def danglingRequirements (d : Document) : List Diagnostic :=
  d.workflows.values.flatMap fun w => w.jobs.flatMap fun use =>
    (use.requires.filter (Dangles w ·)).map danglingRequirement

/-- A finding for each requirement of a document that dangles and whose job is not passed over. -/
def reportedRequirements (caches : Caches) (d : Document) : List Diagnostic :=
  d.workflows.values.flatMap fun w => w.jobs.flatMap fun use =>
    if IsPassedOver caches d use then [] else (use.requires.filter (Dangles w ·)).map danglingRequirement

theorem isDeclaredIn_eq_false_iff {w : Workflow} {name : String} :
    isDeclaredIn w name = false ↔ ∀ use ∈ w.jobs, use.stepName ≠ name ∧ use.jobName ≠ name := by
  simp [isDeclaredIn, not_or]

/-- Of the findings about a requirement one says that it dangles, if it does. -/
theorem filter_requirement (w : Workflow) (r : Requirement) :
    (requirement w r).filter (hasCode .undefinedRequirement) = if Dangles w r then [danglingRequirement r] else [] := by
  have hstatuses : (statuses [] r.statuses).filter (hasCode .undefinedRequirement) = [] :=
    (coded_statuses r.statuses []).filter_hasCode rfl
  have hdangles : (isDeclaredIn w r.name.text || Reference.isPartialMatrix r.name.text ||
      Reference.hasSubstitution r.name.text) = true ↔ ¬Dangles w r := by
    rw [Dangles, ← isDeclaredIn_eq_false_iff]
    cases isDeclaredIn w r.name.text <;> cases Reference.hasSubstitution r.name.text <;>
      cases Reference.isPartialMatrix r.name.text <;> simp
  have hdefault : ∀ (b : Bool) (d : Diagnostic), isOf [] d = true →
      (if b = true then [d] else []).filter (hasCode .undefinedRequirement) = [] := by
    intro b d hd
    have hcoded : Coded [] (if b = true then [d] else []) := by cases b <;> simp [hd]
    exact hcoded.filter_hasCode rfl
  rw [requirement, List.filter_append, List.filter_append, hstatuses, hdefault _ _ (by rw [isOf_withTag, isOf_mk]),
    List.append_nil, List.append_nil]
  simp only [hdangles, ite_not]
  split <;> rfl

/-- Of the findings about a job in a workflow those about its requirements are one for each that dangles, unless the
job is passed over. -/
theorem filter_jobUse (w : Workflow) (use : JobUse) (henclosing : s.enclosing = none) :
    (findings (jobUse s w use)).filter (hasCode .undefinedRequirement) =
      if IsPassedOver s.caches s.document use then []
      else (use.requires.filter (Dangles w ·)).map danglingRequirement := by
  have hunknown : s.isFromUnknownOrb use.jobName = s.document.isFromUnknownOrb s.caches use.jobName := by
    simp [Scope.isFromUnknownOrb, Scope.documents, henclosing]
  have hname : (findings (jobName s use)).filter (hasCode .undefinedRequirement) = [] :=
    (coded_jobName use).filter_hasCode rfl
  have hsteps : ∀ sts, (findings (steps s ∅ sts)).filter (hasCode .undefinedRequirement) = [] :=
    fun sts => (coded_steps ∅ sts).filter_hasCode rfl
  have hreruns : (use.maxAutoReruns.toList.flatMap jobReruns).filter (hasCode .undefinedRequirement) = [] :=
    (coded_flatMap.mpr fun count _ => coded_jobReruns count).filter_hasCode rfl
  have hcontexts : (use.contexts.flatMap (context s)).filter (hasCode .undefinedRequirement) = [] :=
    (coded_flatMap.mpr fun c _ => coded_context c).filter_hasCode rfl
  have hrequires : (use.requires.flatMap (requirement w)).filter (hasCode .undefinedRequirement) =
      (use.requires.filter (Dangles w ·)).map danglingRequirement := by
    have hone := flatMap_ite_singleton true (fun r => decide (Dangles w r)) danglingRequirement use.requires
    simpa [List.filter_flatMap, filter_requirement] using hone
  have hpassed : IsPassedOver s.caches s.document use ↔
      (use.jobName.isEmpty || s.document.isFromUnknownOrb s.caches use.jobName) = true ∨
        use.type.any (·.text == approvalType) = true := by
    simp [IsPassedOver, Option.any_eq_true, or_assoc]
  rw [jobUse, hunknown]
  split
  · next hnameless => rw [if_pos (hpassed.mpr (.inl hnameless)), findings_nil, List.filter_nil]
  split
  · next happroval => rw [if_pos (hpassed.mpr (.inr happroval)), findings_nil, List.filter_nil]
  · next hnamed hother =>
    rw [if_neg fun h => (hpassed.mp h).elim hnamed hother]
    simp only [findings_append, findings_map_finding, List.filter_append, hname, hsteps, hreruns, hcontexts, hrequires,
      List.append_nil]
    cases use.type <;> rfl

/-- Of the findings about a document those about requirements are those of its workflows. The bodies of local orbs have
none. -/
theorem filter_document_requirements (loader : Load.Loader) (schema : Option Schema) (henclosing : s.enclosing = none) :
    (findings (document loader schema s)).filter (hasCode .undefinedRequirement) =
      reportedRequirements s.caches s.document := by
  have hcycles : (findings (cycles s)).filter (hasCode .undefinedRequirement) = [] := coded_cycles.filter_hasCode rfl
  rw [filter_document_of_workflows loader schema rfl]
  simp only [workflows, findings_append, findings_flatMap, List.filter_append, hcycles, List.append_nil,
    List.filter_flatMap, filter_jobUse _ _ henclosing, reportedRequirements]

theorem reportedRequirements_eq_iff : reportedRequirements caches d = danglingRequirements d ↔
    ∀ w ∈ d.workflows.values, ∀ use ∈ w.jobs, IsPassedOver caches d use → ∀ r ∈ use.requires, ¬Dangles w r := by
  have hpart (w : Workflow) (use : JobUse) : (if IsPassedOver caches d use then []
      else (use.requires.filter (Dangles w ·)).map danglingRequirement).Sublist
      ((use.requires.filter (Dangles w ·)).map danglingRequirement) := by
    split
    · exact List.nil_sublist _
    · exact List.Sublist.refl _
  have hsame (w : Workflow) (use : JobUse) : (if IsPassedOver caches d use then []
      else (use.requires.filter (Dangles w ·)).map danglingRequirement) =
      (use.requires.filter (Dangles w ·)).map danglingRequirement ↔
      (IsPassedOver caches d use → ∀ r ∈ use.requires, ¬Dangles w r) := by
    split <;> simp_all [eq_comm (a := ([] : List Diagnostic))]
  rw [reportedRequirements, danglingRequirements,
    flatMap_eq_flatMap_iff fun w _ => List.Sublist.flatMap_right _ fun use _ => hpart w use]
  refine forall₂_congr fun w _ => ?_
  rw [flatMap_eq_flatMap_iff fun use _ => hpart w use]
  exact forall₂_congr fun use _ => hsame w use

end Check

namespace Analyzer

open Check

/-- Of the findings of an analysis those about requirements are one for each requirement of the document that dangles,
in order, unless its job is passed over. So all that dangle are found just if no job that is passed over has one. -/
theorem danglingRequirements_found (a : Analyzer) (session : Session) (d : Document) :
    (∃ found, (a.check session d).1 = d.addFindings found ∧
      found.filter (hasCode .undefinedRequirement) = reportedRequirements (a.fetchDeclared session d).2.caches d) ∧
    ∀ caches, reportedRequirements caches d = danglingRequirements d ↔
      ∀ w ∈ d.workflows.values, ∀ use ∈ w.jobs, IsPassedOver caches d use → ∀ r ∈ use.requires, ¬Dangles w r := by
  refine ⟨⟨_, rfl, ?_⟩, fun caches => reportedRequirements_eq_iff⟩
  have hanswers : ∀ e, isOf answerCodes e = true → hasCode .undefinedRequirement e = false :=
    fun e he => hasCode_eq_false he rfl
  exact (a.filter_answers _ hanswers _).trans (filter_document_requirements a.loader a.schema rfl)

/-- What requirements of a configuration dangle, and what an analysis of it says about requirements. -/
def judgedRequirements (source : String) : Option (List Diagnostic × List Diagnostic) :=
  (Analyzer.standard.analyze {} source).1.toOption.map fun d =>
    (danglingRequirements d, d.diagnostics.filter (hasCode .undefinedRequirement))

/-- A requirement that dangles is not found if it is that of an approval, of a job of an orb that is not known, or of an
item without a name. -/
theorem requirements_missed :
    judgedRequirements ("workflows:\n  main:\n    jobs:\n      - hold:\n          type: approval\n" ++
        "          requires: [ghost]\n") =
      some ([.error .undefinedRequirement ⟨⟨5, 21⟩, ⟨5, 26⟩⟩ "Cannot find declaration for job reference ghost"], []) ∧
    judgedRequirements ("orbs:\n  node: acme/node@1.0.0\nworkflows:\n  main:\n    jobs:\n      - node/test:\n" ++
        "          requires: [ghost]\n") =
      some ([.error .undefinedRequirement ⟨⟨6, 21⟩, ⟨6, 26⟩⟩ "Cannot find declaration for job reference ghost"], []) ∧
    judgedRequirements "workflows:\n  main:\n    jobs:\n      - \"\":\n          requires: [ghost]\n" =
      some ([.error .undefinedRequirement ⟨⟨4, 21⟩, ⟨4, 26⟩⟩ "Cannot find declaration for job reference ghost"], []) := by
  decide +kernel

end Analyzer

open Relation

namespace JobUse

/-- A requirement of the job is settled by another one, by its name in the workflow or in the configuration. -/
def Requires (use other : JobUse) : Prop :=
  ∃ r ∈ use.requires, other.stepName = r.name.text ∨ other.jobName = r.name.text

/-- A requirement of the job has the name of another one in the workflow. -/
def RequiresStep (use other : JobUse) : Prop := ∃ r ∈ use.requires, other.stepName = r.name.text

instance (use other : JobUse) : Decidable (use.Requires other) :=
  inferInstanceAs (Decidable (∃ r ∈ use.requires, other.stepName = r.name.text ∨ other.jobName = r.name.text))

end JobUse

namespace Workflow

def Within (w : Workflow) (R : JobUse → JobUse → Prop) (use other : JobUse) : Prop :=
  use ∈ w.jobs ∧ other ∈ w.jobs ∧ R use other

def stuckJobs (w : Workflow) : List JobUse :=
  (Check.stuck w.dependencies).flatMap fun name => w.jobs.filter (·.stepName == name)

/-- Some job with the name of a job waits, directly or not, for a job that waits for itself. -/
def WaitsForCycle (w : Workflow) (use : JobUse) : Prop :=
  ∃ same other, same.stepName = use.stepName ∧ ReflTransGen (w.Within JobUse.RequiresStep) same other ∧
    TransGen (w.Within JobUse.RequiresStep) other other

end Workflow

namespace Check

theorem leadsTo_cons {name a b : String} {next : List String} {entries : List (String × List String)} :
    LeadsTo ⟨(name, next) :: entries⟩ a b ↔ a = name ∧ b ∈ next ∨ LeadsTo ⟨entries⟩ a b := by
  simp only [LeadsTo, List.mem_cons, Prod.mk.injEq, or_and_right, exists_or, and_assoc, exists_and_left,
    exists_eq_left]

/-- Adding a name to those that another leads to adds one edge. -/
theorem leadsTo_insert {m : NameMap (List String)} {name added a b : String} :
    LeadsTo (m.insert name ((m.get? name).getD [] ++ [added])) a b ↔ LeadsTo m a b ∨ a = name ∧ b = added := by
  obtain ⟨entries⟩ := m
  induction entries with
  | nil => simp [NameMap.insert, NameMap.setIn, NameMap.get?, LeadsTo]
  | cons entry entries ih =>
    obtain ⟨first, next⟩ := entry
    by_cases hfirst : first = name
    · subst hfirst
      simp only [NameMap.insert, NameMap.setIn, NameMap.get?, List.find?_cons, beq_self_eq_true, if_true,
        Option.map_some, Option.getD_some, leadsTo_cons, List.mem_append, List.mem_singleton]
      tauto
    · have hget : (⟨(first, next) :: entries⟩ : NameMap (List String)).get? name =
          (⟨entries⟩ : NameMap (List String)).get? name := by
        simp [NameMap.get?, hfirst]
      have hinsert (value : List String) : (⟨(first, next) :: entries⟩ : NameMap (List String)).insert name value =
          ⟨(first, next) :: ((⟨entries⟩ : NameMap (List String)).insert name value).entries⟩ := by
        simp [NameMap.insert, NameMap.setIn, hfirst]
      rw [hget, hinsert, leadsTo_cons, ih, leadsTo_cons, or_assoc]

private theorem leadsTo_foldl {edges : List (String × String)} {m : NameMap (List String)} {a b : String} :
    LeadsTo (edges.foldl (fun found (required, name) =>
      found.insert required ((found.get? required).getD [] ++ [name])) m) a b ↔ LeadsTo m a b ∨ (a, b) ∈ edges := by
  induction edges generalizing m with
  | nil => simp
  | cons e edges ih =>
    obtain ⟨required, name⟩ := e
    rw [List.foldl_cons, ih, leadsTo_insert, List.mem_cons, Prod.mk.injEq, or_assoc]

/-- One name leads to another if a job with the other name requires the one. -/
theorem leadsTo_dependenciesOf {uses : List JobUse} {a b : String} :
    LeadsTo (Read.dependenciesOf uses) a b ↔
      ∃ use ∈ uses, use.stepName = b ∧ ∃ r ∈ use.requires, a = r.name.text := by
  have hempty : ¬LeadsTo ∅ a b := fun ⟨_, h, _⟩ => by cases h
  rw [Read.dependenciesOf, leadsTo_foldl, or_iff_right hempty]
  simp only [List.mem_flatMap, List.mem_map, Prod.mk.injEq]
  constructor
  · rintro ⟨use, huse, r, hr, rfl, rfl⟩
    exact ⟨use, huse, rfl, r, hr, rfl⟩
  · rintro ⟨use, huse, rfl, r, hr, rfl⟩
    exact ⟨use, huse, r, hr, rfl, rfl⟩

end Check

namespace Workflow

open Check

variable {w : Workflow}

/-- A way to a job leads as well to all jobs of its name. -/
theorem transGen_of_stepName_eq {use other same : JobUse} (hsame : same ∈ w.jobs)
    (hname : same.stepName = other.stepName)
    (hway : TransGen (w.Within JobUse.RequiresStep) use other) : TransGen (w.Within JobUse.RequiresStep) use same := by
  obtain ⟨last, hbefore, hlast, -, hrequires⟩ := TransGen.tail'_iff.mp hway
  refine TransGen.tail'_iff.mpr ⟨last, hbefore, hlast, hsame, ?_⟩
  rwa [JobUse.RequiresStep, hname]

section

variable (h : w.dependencies = Read.dependenciesOf w.jobs)
include h

theorem leadsTo_iff {a b : String} : LeadsTo w.dependencies a b ↔
    ∃ use ∈ w.jobs, use.stepName = b ∧ ∃ r ∈ use.requires, a = r.name.text := by
  rw [h, leadsTo_dependenciesOf]

/-- What a job waits for leads to it, by their names. -/
theorem leadsTo_of_within {use other : JobUse} (hwithin : w.Within JobUse.RequiresStep use other) :
    LeadsTo w.dependencies other.stepName use.stepName :=
  (leadsTo_iff h).mpr ⟨use, hwithin.1, rfl, hwithin.2.2⟩

/-- Where a name leads to another, a job with the other name waits for all jobs with the one. -/
theorem exists_within_of_leadsTo {b : String} {other : JobUse} (hother : other ∈ w.jobs)
    (hleads : LeadsTo w.dependencies other.stepName b) :
    ∃ use ∈ w.jobs, use.stepName = b ∧ w.Within JobUse.RequiresStep use other := by
  obtain ⟨use, huse, hname, hrequires⟩ := (leadsTo_iff h).mp hleads
  exact ⟨use, huse, hname, huse, hother, hrequires⟩

theorem exists_transGen_of_leadsTo {b : String} {other : JobUse} (hother : other ∈ w.jobs)
    (hleads : TransGen (LeadsTo w.dependencies) other.stepName b) :
    ∃ use ∈ w.jobs, use.stepName = b ∧ TransGen (w.Within JobUse.RequiresStep) use other := by
  induction hleads with
  | single hleads =>
    obtain ⟨use, huse, hname, hwithin⟩ := exists_within_of_leadsTo h hother hleads
    exact ⟨use, huse, hname, .single hwithin⟩
  | tail _ hleads ih =>
    obtain ⟨next, hnext, rfl, hway⟩ := ih
    obtain ⟨use, huse, hname, hwithin⟩ := exists_within_of_leadsTo h hnext hleads
    exact ⟨use, huse, hname, .head hwithin hway⟩

/-- On a cycle of names a job with such a name waits for itself. -/
theorem exists_transGen_self {name : String} (hcycle : TransGen (LeadsTo w.dependencies) name name) :
    ∃ use ∈ w.jobs, use.stepName = name ∧ TransGen (w.Within JobUse.RequiresStep) use use := by
  obtain ⟨_, -, hlast⟩ := TransGen.tail'_iff.mp hcycle
  obtain ⟨other, hother, rfl, -⟩ := (leadsTo_iff h).mp hlast
  obtain ⟨use, huse, hname, hway⟩ := exists_transGen_of_leadsTo h hother hcycle
  exact ⟨use, huse, hname, transGen_of_stepName_eq huse hname hway⟩

private theorem behindCycle_iff_waitsForCycle {use : JobUse} :
    BehindCycle w.dependencies use.stepName ↔ w.WaitsForCycle use := by
  constructor
  · rintro ⟨name, hcycle, hway⟩
    obtain ⟨other, hother, rfl, hself⟩ := exists_transGen_self h hcycle
    obtain hname | hway := reflTransGen_iff_eq_or_transGen.mp hway
    · exact ⟨other, other, hname.symm, .refl, hself⟩
    · obtain ⟨same, -, hname, hway⟩ := exists_transGen_of_leadsTo h hother hway
      exact ⟨same, other, hname, hway.to_reflTransGen, hself⟩
  · rintro ⟨same, other, hname, hway, hself⟩
    have hleads : ∀ a b, w.Within JobUse.RequiresStep a b →
        Function.swap (LeadsTo w.dependencies) a.stepName b.stepName := fun _ _ => leadsTo_of_within h
    refine ⟨other.stepName, transGen_swap.mp (hself.lift JobUse.stepName hleads), ?_⟩
    rw [← hname]
    exact reflTransGen_swap.mp (hway.lift JobUse.stepName hleads)

theorem mem_stuckJobs_iff {use : JobUse} : use ∈ w.stuckJobs ↔ use ∈ w.jobs ∧ w.WaitsForCycle use := by
  rw [← behindCycle_iff_waitsForCycle h, ← mem_stuck_iff, stuckJobs]
  simp [and_comm]

/-- Where no requirement is settled only by the name of a job in the configuration, all jobs on a cycle are stuck. -/
theorem mem_stuckJobs_of_transGen {use : JobUse}
    (hnames : ∀ a ∈ w.jobs, ∀ b ∈ w.jobs, a.Requires b → a.RequiresStep b)
    (hcycle : TransGen (w.Within JobUse.Requires) use use) : use ∈ w.stuckJobs := by
  have hsteps : TransGen (w.Within JobUse.RequiresStep) use use :=
    hcycle.lift id fun a b ⟨ha, hb, hrequires⟩ => ⟨ha, hb, hnames a ha b hb hrequires⟩
  obtain ⟨_, hfirst, -⟩ := TransGen.head'_iff.mp hcycle
  exact (mem_stuckJobs_iff h).mpr ⟨hfirst.1, use, use, rfl, .refl, hsteps⟩

end

end Workflow

namespace Read

open Reads Yaml

variable {v : View} {d : Document} {nested : List Char → Except Endless Document}

/-- What depends on what in a workflow is read of its jobs. -/
def HasDependencies (w : Workflow) : Prop := w.dependencies = dependenciesOf w.jobs

private theorem always_workflow_hasDependencies (p : Pair) :
    Always (fun found => ∀ w ∈ found, HasDependencies w) (workflow v p) := by
  unfold workflow
  split
  · exact always_bind fun read => always_pure (by rintro _ ⟨⟩; rfl)
  · exact always_pure (by simp)

private theorem always_workflows_hasDependencies (version : Float) (n : Node) :
    Always (fun m => ∀ w ∈ m.values, HasDependencies w) (workflows v version n) := by
  refine always_through (fun m p _ hm => ?_) (by simp [values_empty])
  split
  · split
    · exact always_bind fun _ => always_pure hm
    · exact always_pure hm
  · refine (always_workflow_hasDependencies p).bind fun found hfound => ?_
    cases found with
    | none => exact always_pure hm
    | some w => exact always_insertFirst hm (hfound w rfl)

private theorem always_readSection_hasDependencies {name : String} {p : Pair}
    (hd : ∀ w ∈ d.workflows.values, HasDependencies w) :
    Always (fun read => ∀ w ∈ read.workflows.values, HasDependencies w) (readSection v nested d name p) := by
  unfold readSection
  split
  case h_12 value _ =>
    exact (always_workflows_hasDependencies _ value).bind fun workflows hworkflows => always_pure hworkflows
  all_goals first
    | exact always_pure hd
    | exact always_bind fun _ => always_pure hd

private theorem hasDependencies_of_ofTreeWith {kind : DocumentKind} {tree : Tree}
    (hd : ofTreeWith nested kind tree = .ok d) :
    ∀ w ∈ d.workflows.values, HasDependencies w := by
  obtain ⟨read, findings, hread, rfl⟩ := exists_read_of_ofTreeWith
    (I := fun read => ∀ w ∈ read.workflows.values, HasDependencies w) hd (by simp [Document.ofTree, values_empty])
    fun _ _ _ _ hread => always_readSection_hasDependencies hread
  have hgiven : ∀ w ∈ (giveContexts read).workflows.values, HasDependencies w :=
    giveContexts_induction (I := fun read => ∀ w ∈ read.workflows.values, HasDependencies w)
      (fun _ _ hgiven => hgiven) (fun _ _ hgiven => hgiven) hread
  cases kind <;> exact hgiven

end Read

namespace Check

variable {s : Scope}

def stuckJob (use : JobUse) : Diagnostic :=
  .error .dependencyCycle use.jobNameRange ("The job `" ++ use.stepName ++ "` is part of a cycle")

/-- A finding for each job of a document that is stuck, workflow by workflow. -/
def stuckJobFindings (d : Document) : List Diagnostic := d.workflows.values.flatMap fun w => w.stuckJobs.map stuckJob

private theorem findings_cycles : findings (cycles s) = stuckJobFindings s.document := by
  simp only [cycles, findings_flatMap, findings_map, stuckJobFindings, Workflow.stuckJobs, List.map_flatMap]
  refine List.flatMap_congr fun w _ => List.flatMap_congr fun name _ => List.map_congr_left fun use huse => ?_
  obtain rfl : use.stepName = name := by simpa using (List.mem_filter.mp huse).2
  rfl

/-- Of the findings about a document those about cycles are those of its workflows. -/
theorem filter_document_cycles (loader : Load.Loader) (schema : Option Schema) :
    (findings (document loader schema s)).filter (hasCode .dependencyCycle) = stuckJobFindings s.document := by
  have huses : (s.document.workflows.values.flatMap fun w => w.jobs.flatMap fun use => findings (jobUse s w use)).filter
      (hasCode .dependencyCycle) = [] :=
    (coded_flatMap.mpr fun w _ => coded_flatMap.mpr fun use _ => coded_jobUse w use).filter_hasCode rfl
  have hcycles : (stuckJobFindings s.document).filter (hasCode .dependencyCycle) = stuckJobFindings s.document := by
    simp only [stuckJobFindings, List.filter_flatMap, List.filter_map]
    refine List.flatMap_congr fun w _ => congrArg (List.map stuckJob) (List.filter_eq_self.mpr fun use _ => rfl)
  rw [filter_document_of_workflows loader schema rfl]
  simp only [workflows, findings_append, findings_flatMap, findings_cycles, List.filter_append, huses, hcycles,
    List.nil_append]

end Check

namespace Analyzer

open Check

/-- Of the findings of an analysis those about cycles are one for each job that is stuck. A job is stuck just if, by the
names in the workflow, it waits for a job that waits for itself, or has the name of one that does. So all jobs that wait
for themselves are found where no requirement is settled by the name of a job in the configuration alone. -/
theorem stuckJobs_found (a : Analyzer) (session : Session) {nested : List Char → Except Endless Document}
    {kind : DocumentKind} {tree : Yaml.Tree} {d : Document} (hd : Read.ofTreeWith nested kind tree = .ok d) :
    (∃ found, (a.check session d).1 = d.addFindings found ∧
      found.filter (hasCode .dependencyCycle) = d.workflows.values.flatMap fun w => w.stuckJobs.map stuckJob) ∧
    ∀ w ∈ d.workflows.values, (∀ use, use ∈ w.stuckJobs ↔ use ∈ w.jobs ∧ w.WaitsForCycle use) ∧
      ((∀ use ∈ w.jobs, ∀ other ∈ w.jobs, use.Requires other → use.RequiresStep other) →
        ∀ use, TransGen (w.Within JobUse.Requires) use use → use ∈ w.stuckJobs) := by
  refine ⟨⟨_, rfl, ?_⟩, fun w hw => ?_⟩
  · have hanswers : ∀ e, isOf answerCodes e = true → hasCode .dependencyCycle e = false :=
      fun e he => hasCode_eq_false he rfl
    exact (a.filter_answers _ hanswers _).trans (filter_document_cycles a.loader a.schema)
  · have hdependencies := Read.hasDependencies_of_ofTreeWith hd w hw
    exact ⟨fun use => Workflow.mem_stuckJobs_iff hdependencies,
      fun hnames use => Workflow.mem_stuckJobs_of_transGen hdependencies hnames⟩

def twoJobs (first second : String) : List Char :=
  ("jobs: {build: {}, test: {}}\nworkflows:\n  main:\n    jobs:\n      - build:\n          name: first\n" ++
    "          requires: [" ++ first ++ "]\n      - test:\n          requires: [" ++ second ++ "]\n").toList

/-- Two jobs that wait for each other by their names in the workflow are stuck. -/
theorem stuckJobs_found_of_twoJobs : ∃ d,
    Document.parseTree .strict .config (Yaml.Grammar.strict.tree (twoJobs "test" "first")) = .ok d ∧
    (∃ found, (Analyzer.standard.check {} d).1 = d.addFindings found ∧
      found.filter (hasCode .dependencyCycle) = d.workflows.values.flatMap fun w => w.stuckJobs.map stuckJob) ∧
    (d.workflows.values.flatMap fun w => w.stuckJobs.map stuckJob) =
      [.error .dependencyCycle ⟨⟨7, 8⟩, ⟨7, 12⟩⟩ "The job `test` is part of a cycle",
        .error .dependencyCycle ⟨⟨4, 8⟩, ⟨4, 13⟩⟩ "The job `first` is part of a cycle"] := by
  have hstuck : (Document.parseTree .strict .config
      (Yaml.Grammar.strict.tree (twoJobs "test" "first"))).toOption.map (fun d =>
      d.workflows.values.flatMap fun w => w.stuckJobs.map stuckJob) =
      some [.error .dependencyCycle ⟨⟨7, 8⟩, ⟨7, 12⟩⟩ "The job `test` is part of a cycle",
        .error .dependencyCycle ⟨⟨4, 8⟩, ⟨4, 13⟩⟩ "The job `first` is part of a cycle"] := by
    decide +kernel
  obtain ⟨d, hread, hfound⟩ := Option.map_eq_some_iff.mp hstuck
  have hd := eq_ok_of_toOption hread
  exact ⟨d, hd, (stuckJobs_found .standard {} hd).1, hfound⟩

/-- Two jobs that wait for each other are not found if one requires the other by its name in the configuration. -/
theorem circle_by_jobName_missed : ∃ d, Document.parse .strict (twoJobs "test" "build") = .ok d ∧
    (∃ w ∈ d.workflows.values, w.jobs.length = 2 ∧
      ∀ use ∈ w.jobs, TransGen (w.Within JobUse.Requires) use use) ∧
    (Analyzer.standard.check {} d).1.diagnostics.filter (hasCode .dependencyCycle) = [] := by
  have hcircle : (Document.parse .strict (twoJobs "test" "build")).toOption.any (fun d =>
      (∃ w ∈ d.workflows.values, w.jobs.length = 2 ∧
        ∀ use ∈ w.jobs, ∃ other ∈ w.jobs, use.Requires other ∧ other.Requires use) ∧
      (Analyzer.standard.check {} d).1.diagnostics.filter (hasCode .dependencyCycle) = []) = true := by
    decide +kernel
  obtain ⟨d, hread, hcircle⟩ := (Option.any_eq_true _ _).mp hcircle
  obtain ⟨⟨w, hw, hlength, hwaits⟩, hnone⟩ := of_decide_eq_true hcircle
  refine ⟨d, eq_ok_of_toOption hread, ⟨w, hw, hlength, fun use huse => ?_⟩, hnone⟩
  obtain ⟨other, hother, hthere, hback⟩ := hwaits use huse
  exact .tail (.single ⟨huse, hother, hthere⟩) ⟨hother, huse, hback⟩

end Analyzer

end PipelineLint
