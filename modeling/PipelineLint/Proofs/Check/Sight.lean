import PipelineLint.Check.Document
import PipelineLint.Proofs.NameMap

/-! # What checks see of the caches

A check looks at the caches only for the contents of the registry orbs that the documents of its scope declare. So
scopes that differ in nothing else, and whose caches hold the same contents of those orbs, are checked alike:
`document_eq_of_alike`.
-/

namespace PipelineLint

namespace Document

variable {d : Document} {c c' : Caches}

/-- The orbs of registries that a document declares, whatever their versions. -/
def registryOrbs (d : Document) : List OrbUse := d.orbs.values.filter (!·.url.isLocal)

/-- Two caches hold the same contents of the registry orbs of a document. -/
def SameOrbs (d : Document) (c c' : Caches) : Prop :=
  ∀ use ∈ d.registryOrbs, c'.orbs.get? use.url.id = c.orbs.get? use.url.id

namespace SameOrbs

variable (h : d.SameOrbs c c')
include h

theorem get? {name : String} {use : OrbUse} (hget : d.orbs.get? name = some use)
    (hlocal : use.url.isLocal = false) : c'.orbs.get? use.url.id = c.orbs.get? use.url.id :=
  h use (List.mem_filter.mpr ⟨NameMap.mem_values_of_get? hget, by simp [hlocal]⟩)

theorem orbInfo? (name : String) : d.orbInfo? c' name = d.orbInfo? c name := by
  rw [Document.orbInfo?, Document.orbInfo?]
  cases hget : d.orbs.get? name with
  | none => rfl
  | some use =>
    cases hlocal : use.url.isLocal with
    | true => simp [hlocal]
    | false => simp [hlocal, h.get? hget hlocal]

theorem orbEntity (name : String) (p : OrbInfo → String → Bool) :
    d.orbEntity c' name p = d.orbEntity c name p := by
  rw [Document.orbEntity, Document.orbEntity]
  cases splitOrbName name with
  | none => rfl
  | some parts => simp only [h.orbInfo?]

private theorem isFromUnknownOrb (name : String) : d.isFromUnknownOrb c' name = d.isFromUnknownOrb c name := by
  rw [Document.isFromUnknownOrb, Document.isFromUnknownOrb]
  cases splitOrbName name with
  | none => rfl
  | some parts =>
    cases hget : d.orbs.get? parts.1 with
    | none => simp [hget]
    | some use =>
      cases hlocal : use.url.isLocal with
      | true => simp [hget, hlocal]
      | false => simp [hget, NameMap.contains_eq_isSome_get?, h.get? hget hlocal]

private theorem definedParameters? (name : String) :
    d.definedParameters? c' name = d.definedParameters? c name := by
  rw [Document.definedParameters?, Document.definedParameters?]
  cases d.jobs.get? name with
  | some job => rfl
  | none =>
    cases d.commands.get? name with
    | some command => rfl
    | none => simp only [h.orbInfo?]

end SameOrbs

end Document

namespace Check

namespace Scope

/-- Two scopes differ only in their caches, which hold the same contents of the orbs that can be seen. -/
structure Alike (s s' : Scope) : Prop where
  settings : s'.settings = s.settings
  failures : s'.failures = s.failures
  document : s'.document = s.document
  enclosing : s'.enclosing = s.enclosing
  orbs : ∀ d ∈ s.documents, d.SameOrbs s.caches s'.caches

namespace Alike

variable {s s' : Scope} (h : Alike s s')
include h

theorem documents : s'.documents = s.documents := by
  rw [Scope.documents, Scope.documents, h.document, h.enclosing]

private theorem isLocalOrb : s'.isLocalOrb = s.isLocalOrb := by
  rw [Scope.isLocalOrb, Scope.isLocalOrb, h.enclosing]

theorem pipelineParameters : s'.pipelineParameters = s.pipelineParameters := by
  rw [Scope.pipelineParameters, Scope.pipelineParameters, h.document, h.enclosing]

theorem any_documents {p p' : Document → Bool} (heq : ∀ d ∈ s.documents, p' d = p d) :
    s'.documents.any p' = s.documents.any p := by
  rw [h.documents, Bool.eq_iff_iff, List.any_eq_true, List.any_eq_true]
  exact exists_congr fun d => and_congr_right fun hd => by rw [heq d hd]

theorem findSome?_documents {α : Type} {f f' : Document → Option α} (heq : ∀ d ∈ s.documents, f' d = f d) :
    s'.documents.findSome? f' = s.documents.findSome? f := by
  rw [h.documents]
  revert heq
  generalize s.documents = ds
  intro heq
  induction ds with
  | nil => rfl
  | cons d ds ih =>
    have hd : f' d = f d := heq d List.mem_cons_self
    have hds : ds.findSome? f' = ds.findSome? f := ih fun e he => heq e (List.mem_cons_of_mem _ he)
    rw [List.findSome?_cons, List.findSome?_cons, hd, hds]

private theorem isOrbName (name : String) : s'.isOrbName name = s.isOrbName name :=
  h.any_documents fun _ _ => rfl

private theorem isOrbCommand (name : String) : s'.isOrbCommand name = s.isOrbCommand name :=
  h.any_documents fun d hd => (h.orbs d hd).orbEntity name _

theorem isOrbJob (name : String) : s'.isOrbJob name = s.isOrbJob name :=
  h.any_documents fun d hd => (h.orbs d hd).orbEntity name _

private theorem isOrbExecutor (name : String) : s'.isOrbExecutor name = s.isOrbExecutor name :=
  h.any_documents fun d hd => (h.orbs d hd).orbEntity name _

theorem isFromUnknownOrb (name : String) : s'.isFromUnknownOrb name = s.isFromUnknownOrb name :=
  h.any_documents fun d hd => (h.orbs d hd).isFromUnknownOrb name

theorem orbInfo? (orb : String) : s'.orbInfo? orb = s.orbInfo? orb :=
  h.findSome?_documents fun d hd => (h.orbs d hd).orbInfo? orb

theorem definedParameters? (name : String) : s'.definedParameters? name = s.definedParameters? name :=
  h.findSome?_documents fun d hd => (h.orbs d hd).definedParameters? name

theorem hasExecutor (name : String) : s'.hasExecutor name = s.hasExecutor name := by
  rw [Scope.hasExecutor, Scope.hasExecutor, h.document, h.isOrbExecutor]

theorem isStepName (name : String) : s'.isStepName name = s.isStepName name := by
  rw [Scope.isStepName, Scope.isStepName, h.document, h.isOrbCommand, h.isOrbJob, h.isFromUnknownOrb]

theorem referenced? (usable : Parameters) (text : String) :
    s'.referenced? usable text = s.referenced? usable text := by
  rw [Scope.referenced?, Scope.referenced?, h.pipelineParameters]

end Alike

end Scope

variable {s s' : Scope} (h : s.Alike s')
include h

private theorem executorName_eq_of_alike (name : String) (range : Range) :
    executorName s' name range = executorName s name range := by
  simp only [executorName, h.isFromUnknownOrb, h.hasExecutor]

private theorem plainValue_eq_of_alike (p : Parameter) (entity : String) (range : Range) (v : Value) :
    plainValue s' p entity range v = plainValue s p entity range v := by
  have hexecutor : ∀ v, executorValue s' p entity range v = executorValue s p entity range v := by
    intro v
    cases v <;> simp only [executorValue, executorName_eq_of_alike h]
  simp only [plainValue, hexecutor]

private theorem referenceValue_eq_of_alike (usable : Parameters) (p : Parameter) (entity : String) (range : Range)
    (text : String) : referenceValue s' usable p entity range text = referenceValue s usable p entity range text := by
  simp only [referenceValue, h.referenced?]

private theorem stepsPlace_eq_of_alike (usable : Parameters) (value : String) (range : Range) :
    stepsPlace s' usable value range = stepsPlace s usable value range := by
  simp only [stepsPlace, h.referenced?]

private theorem run_eq_of_alike (usable : Parameters) (r : Run) : run s' usable r = run s usable r := by
  simp only [run, condition, h.referenced?, h.settings]

omit h

mutual
theorem step_eq_of_alike (h : s.Alike s') (usable : Parameters) :
    (st : Step) → step s' usable st = step s usable st
  | .run r => by rw [step, step, run_eq_of_alike h]
  | .steps _ _ value valueRange => by rw [step, step, stepsPlace_eq_of_alike h]
  | .named ⟨name, range, parameters, _⟩ => by
    simp only [step, h.isFromUnknownOrb, h.isStepName, h.definedParameters?,
      values_eq_of_alike h usable name _ parameters]
  | .checkout .. | .setupRemoteDocker .. | .saveCache .. | .restoreCache .. | .storeArtifacts ..
  | .storeTestResults .. | .persistToWorkspace .. | .attachWorkspace .. | .addSshKeys .. => by simp only [step]
theorem steps_eq_of_alike (h : s.Alike s') (usable : Parameters) :
    (sts : List Step) → steps s' usable sts = steps s usable sts
  | [] => by rw [steps, steps]
  | st :: sts => by rw [steps, steps, step_eq_of_alike h usable st, steps_eq_of_alike h usable sts]
theorem values_eq_of_alike (h : s.Alike s') (usable : Parameters) (entity : String) (declared : Parameters) :
    (as : List Assignment) → values s' usable entity declared as = values s usable entity declared as
  | [] => by rw [values, values]
  | ⟨name, v, valueRange, range⟩ :: as => by
    simp only [values, value_eq_of_alike h usable _ entity valueRange v,
      values_eq_of_alike h usable entity declared as]
private theorem value_eq_of_alike (h : s.Alike s') (usable : Parameters) (p : Parameter) (entity : String)
    (range : Range) : (v : Value) → value s' usable p entity range v = value s usable p entity range v
  | .text text => by simp only [value, referenceValue_eq_of_alike h, plainValue_eq_of_alike h]
  | .alias _ => by simp only [value]
  | .steps given => by simp only [value, plainValue_eq_of_alike h, steps_eq_of_alike h usable given]
  | .list items => by simp only [value, plainValue_eq_of_alike h, stepItems_eq_of_alike h usable items]
  | .truth _ | .number _ | .map _ => by simp only [value, plainValue_eq_of_alike h]
theorem stepItems_eq_of_alike (h : s.Alike s') (usable : Parameters) :
    (as : List Assignment) → stepItems s' usable as = stepItems s usable as
  | [] => by rw [stepItems, stepItems]
  | ⟨_, v, valueRange, _⟩ :: as => by
    rw [stepItems, stepItems, stepItem_eq_of_alike h usable valueRange v, stepItems_eq_of_alike h usable as]
theorem stepItem_eq_of_alike (h : s.Alike s') (usable : Parameters) (range : Range) :
    (v : Value) → stepItem s' usable range v = stepItem s usable range v
  | .steps given => by rw [stepItem, stepItem, steps_eq_of_alike h usable given]
  | .text name => by simp only [stepItem, stepName, h.isStepName]
  | .truth _ | .number _ | .list _ | .map _ | .alias _ => by simp only [stepItem]
end

include h

private theorem assignment_eq_of_alike (usable : Parameters) : assignment s' usable = assignment s usable := by
  funext p entity a
  rw [assignment, assignment, value_eq_of_alike h]

private theorem matrixValue_eq_of_alike (entity : String) (declared : Parameters) :
    matrixValue s' entity declared = matrixValue s entity declared := by
  funext a
  simp only [matrixValue, assignment_eq_of_alike h]

private theorem jobUseParameters_eq_of_alike (use : JobUse) (declared : Parameters) :
    jobUseParameters s' use declared = jobUseParameters s use declared := by
  simp only [jobUseParameters, values_eq_of_alike h, matrixValue_eq_of_alike h]

private theorem jobUse_eq_of_alike (w : Workflow) : jobUse s' w = jobUse s w := by
  have hname : ∀ use, jobName s' use = jobName s use := by
    intro use
    simp only [jobName, h.document, h.isOrbJob, h.definedParameters?, jobUseParameters_eq_of_alike h]
  have hcontext : context s' = context s := by
    funext c
    rw [context, context, h.settings]
  funext use
  simp only [jobUse, h.isFromUnknownOrb, hname, hcontext, steps_eq_of_alike h]

private theorem workflows_eq_of_alike : workflows s' = workflows s := by
  simp only [workflows, jobUse_eq_of_alike h, cycles, h.document]

theorem executor_eq_of_alike : executor s' = executor s := by
  have himage : image s' = image s := by
    funext i
    simp only [image, h.settings]
  have hmachine : ∀ e m, machineExecutor s' e m = machineExecutor s e m := by
    intro e m
    rw [machineExecutor, machineExecutor, h.settings]
  funext e
  simp only [executor, himage, hmachine]

theorem executors_eq_of_alike : executors s' = executors s := by
  rw [executors, executors, h.document, executor_eq_of_alike h]

private theorem jobExecutor_eq_of_alike (j : Job) (use : ExecutorUse) : jobExecutor s' j use = jobExecutor s j use := by
  have hcall : ∀ declared, call s' j.parameters use.name use.range declared use.parameters =
      call s j.parameters use.name use.range declared use.parameters := by
    intro declared
    simp only [call, values_eq_of_alike h]
  have hforeign : foreignExecutor s' j use = foreignExecutor s j use := by
    simp only [foreignExecutor, h.isOrbName, h.orbInfo?, h.failures, hcall]
  have hparameter : executorParameter s' j use = executorParameter s j use := by
    simp only [executorParameter, h.referenced?, h.settings, h.hasExecutor, h.isFromUnknownOrb]
  simp only [jobExecutor, hparameter, hforeign, h.document, hcall]

private theorem job_eq_of_alike : job s' = job s := by
  funext j
  have hunused : unusedJob s' j = unusedJob s j := by
    rw [unusedJob, unusedJob, h.isLocalOrb, h.settings, h.document]
  simp only [job, steps_eq_of_alike h, hunused, jobExecutor_eq_of_alike h, executor_eq_of_alike h]

theorem jobs_eq_of_alike : jobs s' = jobs s := by
  rw [jobs, jobs, h.document, job_eq_of_alike h]

theorem commands_eq_of_alike : commands s' = commands s := by
  have hunused : ∀ c, unusedCommand s' c = unusedCommand s c := by
    intro c
    rw [unusedCommand, unusedCommand, h.enclosing, h.settings, h.document]
  simp only [commands, h.document, steps_eq_of_alike h, hunused]

private theorem orbs_eq_of_alike : orbs s' = orbs s := by
  have horb : orb s' = orb s := by
    funext use
    simp only [orb, orbVersion, h.settings, h.document, h.failures, h.orbInfo?]
  rw [orbs, orbs, h.document, horb]

private theorem references_eq_of_alike : references s' = references s := by
  have hundefined : ∀ r range, undefinedReference s' r range = undefinedReference s r range := by
    intro r range
    simp only [undefinedReference, h.pipelineParameters, h.document]
  simp only [references, h.document, hundefined]

private theorem orbBody_eq_of_alike : orbBody s' = orbBody s := by
  rw [orbBody, orbBody, jobs_eq_of_alike h, commands_eq_of_alike h, executors_eq_of_alike h]

omit h

/-- The documents that the check of a document looks into: the document itself and the bodies of its local orbs. -/
def visited (d : Document) : List Document := d :: d.localOrbs.map (·.document)

/-- A document is checked alike in two scopes that differ only in their caches, if these hold the same contents of
the registry orbs of the document and of the bodies of its local orbs. -/
theorem document_eq_of_alike (loader : Load.Loader) (schema : Option Schema) (s : Scope) (c : Caches)
    (henclosing : s.enclosing = none) (h : ∀ d ∈ visited s.document, d.SameOrbs s.caches c) :
    document loader schema { s with caches := c } = document loader schema s := by
  have htop : s.Alike { s with caches := c } := by
    refine ⟨rfl, rfl, rfl, rfl, fun d hd => h d ?_⟩
    simp only [Scope.documents, henclosing, Option.map_none, Option.toList_none, List.mem_singleton] at hd
    exact hd ▸ List.mem_cons_self
  have hbody : ∀ o ∈ s.document.localOrbs,
      orbBody (({ s with caches := c } : Scope).inOrb o) = orbBody (s.inOrb o) := by
    intro o ho
    refine orbBody_eq_of_alike ⟨rfl, rfl, rfl, rfl, fun d hd => h d ?_⟩
    simp only [Scope.documents, Scope.inOrb, Option.map_some, Option.toList_some, List.mem_cons,
      List.not_mem_nil, or_false] at hd
    rcases hd with rfl | rfl
    · exact List.mem_cons_of_mem _ (List.mem_map_of_mem ho)
    · exact List.mem_cons_self
  have hbodies : s.document.localOrbs.flatMap (fun o => orbBody (({ s with caches := c } : Scope).inOrb o)) =
      s.document.localOrbs.flatMap fun o => orbBody (s.inOrb o) := by
    rw [List.flatMap_def, List.flatMap_def, List.map_congr_left hbody]
  rw [document, document, workflows_eq_of_alike htop, jobs_eq_of_alike htop, commands_eq_of_alike htop,
    orbs_eq_of_alike htop, executors_eq_of_alike htop, references_eq_of_alike htop, hbodies]
  rfl

end Check

end PipelineLint
