import PipelineLint.Document.Basic

/-! # Entities without their places

Two texts of the same configuration declare the same entities at different places. `unplaced` is an entity with every
place in it nowhere, and without the words of commands as they are written. What an entity means does not depend on
either.
-/

namespace PipelineLint

namespace NameMap

variable {α β : Type}

def map (f : α → β) (m : NameMap α) : NameMap β := ⟨m.entries.map fun entry => (entry.1, f entry.2)⟩

variable (f : α → β) (m : NameMap α)

theorem get?_map (name : String) : (m.map f).get? name = (m.get? name).map f := by
  simp only [map, get?, List.find?_map, Option.map_map]
  rfl

theorem contains_map (name : String) : (m.map f).contains name = m.contains name := by
  rw [contains_eq_isSome_get?, contains_eq_isSome_get?, get?_map, Option.isSome_map]

private theorem map_setIn (name : String) (value : α) (entries : List (String × α)) :
    (setIn name value entries).map (fun entry => (entry.1, f entry.2)) =
      setIn name (f value) (entries.map fun entry => (entry.1, f entry.2)) := by
  induction entries with
  | nil => rfl
  | cons entry entries ih =>
    rw [setIn, List.map_cons, setIn]
    split
    · rfl
    · rw [List.map_cons, ih]

theorem map_insert (name : String) (value : α) : (m.insert name value).map f = (m.map f).insert name (f value) := by
  rw [insert, map, map_setIn]
  rfl

theorem map_modify {g : α → α} {g' : β → β} (hg : ∀ value, f (g value) = g' (f value)) (name : String) :
    (m.modify name g).map f = (m.map f).modify name g' := by
  simp only [modify, map, List.map_map, mk.injEq]
  refine List.map_congr_left fun entry _ => ?_
  simp only [Function.comp_apply]
  split
  · rw [hg]
  · rfl

theorem values_map : (m.map f).values = m.values.map f := by
  simp only [values, map, List.map_map]
  rfl

private theorem map_foldl_insert (entries : List (String × α)) :
    (entries.foldl (fun m entry => m.insert entry.1 entry.2) m).map f =
      (entries.map fun entry => (entry.1, f entry.2)).foldl (fun m entry => m.insert entry.1 entry.2) (m.map f) := by
  induction entries generalizing m with
  | nil => rfl
  | cons entry entries ih => rw [List.foldl_cons, ih, map_insert, List.map_cons, List.foldl_cons]

theorem map_ofList (entries : List (String × α)) :
    (ofList entries).map f = ofList (entries.map fun entry => (entry.1, f entry.2)) := map_foldl_insert f ∅ entries

end NameMap

def Located.unplaced (l : Located) : Located := { l with range := {} }

def Environment.unplaced (e : Environment) : Environment := { range := {}, values := e.values.map Located.unplaced }

/-- The run step without places and without its command as written. -/
def Run.unplaced (r : Run) : Run :=
  { r with
    range := {}, commandRange := {}, rawCommand := ""
    condition := r.condition.map Located.unplaced, environment := r.environment.unplaced
    maxAutoReruns := r.maxAutoReruns.map Located.unplaced, autoRerunDelay := r.autoRerunDelay.map Located.unplaced }

mutual
/-- The value given to a parameter, without places. -/
def Assignment.unplaced : Assignment → Assignment
  | ⟨name, value, _, _⟩ => ⟨name, value.unplaced, {}, {}⟩
/-- The values given to parameters, without places. -/
def Assignment.unplacedAll : List Assignment → List Assignment
  | [] => []
  | a :: as => a.unplaced :: Assignment.unplacedAll as
def Value.unplaced : Value → Value
  | .list items => .list (Assignment.unplacedAll items)
  | .map entries => .map (Assignment.unplacedAll entries)
  | .steps steps => .steps (Step.unplacedAll steps)
  | value => value
/-- The call without places. -/
def Invocation.unplaced : Invocation → Invocation
  | ⟨name, _, parameters, _⟩ => ⟨name, {}, Assignment.unplacedAll parameters, {}⟩
def Step.unplaced : Step → Step
  | .named call => .named call.unplaced
  | .run r => .run r.unplaced
  | .checkout _ path => .checkout {} path
  | .setupRemoteDocker _ layerCaching version => .setupRemoteDocker {} layerCaching version
  | .saveCache _ name key paths => .saveCache {} name key paths
  | .restoreCache _ name key keys => .restoreCache {} name key keys
  | .storeArtifacts _ path destination => .storeArtifacts {} path destination
  | .storeTestResults _ path => .storeTestResults {} path
  | .persistToWorkspace _ root paths => .persistToWorkspace {} root paths
  | .attachWorkspace _ target => .attachWorkspace {} target
  | .addSshKeys _ fingerprints => .addSshKeys {} fingerprints
  | .steps _ name value _ => .steps {} name value {}
def Step.unplacedAll : List Step → List Step
  | [] => []
  | step :: steps => step.unplaced :: Step.unplacedAll steps
end

@[simp] theorem Assignment.unplacedAll_eq_map (as : List Assignment) : unplacedAll as = as.map unplaced := by
  induction as with
  | nil => simp [unplacedAll]
  | cons a as ih => simp [unplacedAll, ih]

@[simp] theorem Step.unplacedAll_eq_map (steps : List Step) : unplacedAll steps = steps.map unplaced := by
  induction steps with
  | nil => simp [unplacedAll]
  | cons step steps ih => simp [unplacedAll, ih]

theorem Assignment.unplaced_eq (a : Assignment) : a.unplaced = ⟨a.name, a.value.unplaced, {}, {}⟩ := by
  cases a
  rw [unplaced]

theorem Invocation.unplaced_eq (c : Invocation) :
    c.unplaced = ⟨c.name, {}, c.parameters.map Assignment.unplaced, {}⟩ := by
  cases c
  rw [unplaced, Assignment.unplacedAll_eq_map]

private theorem Assignments.map_insert (as : Assignments) (a : Assignment) :
    (as.insert a).map Assignment.unplaced = Assignments.insert (as.map Assignment.unplaced) a.unplaced := by
  have hname (a : Assignment) : a.unplaced.name = a.name := by rw [Assignment.unplaced_eq]
  induction as with
  | nil => rfl
  | cons b as ih =>
    rw [Assignments.insert, List.map_cons, Assignments.insert, hname, hname]
    split
    · rfl
    · rw [List.map_cons, ih]

theorem Assignments.map_insert_congr {as bs : Assignments} {a b : Assignment}
    (has : as.map Assignment.unplaced = bs.map Assignment.unplaced) (hab : a.unplaced = b.unplaced) :
    (as.insert a).map Assignment.unplaced = (bs.insert b).map Assignment.unplaced := by
  rw [map_insert, map_insert, has, hab]

theorem Step.name_unplaced (s : Step) : s.unplaced.name = s.name := by
  cases s
  case named call => rw [unplaced, name, name, Invocation.unplaced_eq]
  all_goals simp [unplaced, name, Run.unplaced]

def ParameterType.unplaced : ParameterType → ParameterType
  | .enum default values _ => .enum default values {}
  | .steps default => .steps (default.map Step.unplaced)
  | type => type

def Parameter.unplaced (p : Parameter) : Parameter :=
  { p with nameRange := {}, range := {}, typeRange := {}, defaultRange := {}, type := p.type.unplaced }

def ImageSpec.unplaced (s : ImageSpec) : ImageSpec :=
  { s with range := {}, imageRange := {}, environment := s.environment.unplaced }

def Machine.unplaced (m : Machine) : Machine := { m with imageRange := {}, range := {} }

/-- What an executor runs on, without places. -/
def ExecutorKind.unplaced : ExecutorKind → ExecutorKind
  | .docker images => .docker (images.map ImageSpec.unplaced)
  | .machine m => .machine m.unplaced
  | .macos xcode _ => .macos xcode {}
  | .windows image _ => .windows image {}
  | .incomplete => .incomplete

def Executor.unplaced (e : Executor) : Executor :=
  { e with
    nameRange := {}, range := {}, resourceClassRange := {}, environment := e.environment.unplaced
    parameters := e.parameters.map Parameter.unplaced, parametersRange := {}, kind := e.kind.unplaced }

def Command.unplaced (c : Command) : Command :=
  { c with
    nameRange := {}, range := {}, descriptionRange := {}, steps := c.steps.map Step.unplaced, stepsRange := {}
    parameters := c.parameters.map Parameter.unplaced, parametersRange := {} }

/-- The executor that a job names, without places. -/
def ExecutorUse.unplaced (u : ExecutorUse) : ExecutorUse :=
  { u with nameRange := {}, range := {}, parameters := u.parameters.map Assignment.unplaced }

def Retention.unplaced (r : Retention) : Retention := { range := {}, caches := r.caches.map Located.unplaced }

def Job.unplaced (j : Job) : Job :=
  { j with
    nameRange := {}, range := {}, type := j.type.map Located.unplaced, parallelismRange := {}
    resourceClassRange := {}, steps := j.steps.map Step.unplaced, stepsRange := {}
    executor := j.executor.map ExecutorUse.unplaced, inlineExecutor := j.inlineExecutor.map Executor.unplaced
    parameters := j.parameters.map Parameter.unplaced, parametersRange := {}
    environment := j.environment.unplaced, retention := j.retention.map Retention.unplaced }

def Requirement.unplaced (r : Requirement) : Requirement :=
  { r with name := r.name.unplaced, statuses := r.statuses.map Located.unplaced, statusRange := {} }

/-- The job of a workflow without places. -/
def JobUse.unplaced (u : JobUse) : JobUse :=
  { u with
    range := {}, jobNameRange := {}, stepNameRange := {}, requires := u.requires.map Requirement.unplaced
    requiresRange := {}, contexts := u.contexts.map Located.unplaced, type := u.type.map Located.unplaced
    parameters := u.parameters.map Assignment.unplaced, preSteps := u.preSteps.map Step.unplaced, preStepsRange := {}
    postSteps := u.postSteps.map Step.unplaced, postStepsRange := {}, matrix := u.matrix.map Assignment.unplaced
    maxAutoReruns := u.maxAutoReruns.map Located.unplaced, serialGroup := u.serialGroup.map Located.unplaced }

def Workflow.unplaced (w : Workflow) : Workflow :=
  { w with nameRange := {}, range := {}, jobs := w.jobs.map JobUse.unplaced, jobsRange := {}, triggersRange := {} }

def OrbUse.unplaced (u : OrbUse) : OrbUse :=
  { u with nameRange := {}, range := {}, versionRange := {}, valueRange := {} }

theorem ExecutorKind.isIncomplete_unplaced (k : ExecutorKind) : k.unplaced.isIncomplete = k.isIncomplete := by
  cases k <;> rfl

theorem Command.name_unplaced (c : Command) : c.unplaced.name = c.name := rfl

theorem Job.name_unplaced (j : Job) : j.unplaced.name = j.name := rfl

theorem Workflow.name_unplaced (w : Workflow) : w.unplaced.name = w.name := rfl

theorem OrbUse.name_unplaced (u : OrbUse) : u.unplaced.name = u.name := rfl

mutual
/-- The entities of a document without places: all that was read from its text, but for the tree, the anchors, what
comments hide and what was found. -/
def Document.entities : Document → Document
  | ⟨kind, _, version, _, description, orbs, _, localOrbs, executors, _, commands, _, jobs, _, workflows, _,
      pipelineParameters, _, _, _, _⟩ =>
    { Document.ofTree kind ⟨[], default⟩ with
      version, description, orbs := orbs.map OrbUse.unplaced, localOrbs := LocalOrb.entitiesOfAll localOrbs
      executors := executors.map Executor.unplaced, commands := commands.map Command.unplaced
      jobs := jobs.map Job.unplaced, workflows := workflows.map Workflow.unplaced
      pipelineParameters := pipelineParameters.map Parameter.unplaced }
def LocalOrb.entities : LocalOrb → LocalOrb
  | ⟨name, _, document⟩ => ⟨name, {}, document.entities⟩
def LocalOrb.entitiesOfAll : List LocalOrb → List LocalOrb
  | [] => []
  | o :: orbs => o.entities :: LocalOrb.entitiesOfAll orbs
end

@[simp] theorem LocalOrb.entitiesOfAll_eq_map (orbs : List LocalOrb) : entitiesOfAll orbs = orbs.map entities := by
  induction orbs with
  | nil => simp [entitiesOfAll]
  | cons o orbs ih => simp [entitiesOfAll, ih]

theorem LocalOrb.entities_eq (o : LocalOrb) : o.entities = ⟨o.name, {}, o.document.entities⟩ := by
  cases o
  rw [entities]

theorem LocalOrb.map_insert (orbs : List LocalOrb) (o : LocalOrb) :
    (LocalOrb.insert orbs o).map entities = LocalOrb.insert (orbs.map entities) o.entities := by
  have hname (o : LocalOrb) : o.entities.name = o.name := by rw [entities_eq]
  induction orbs with
  | nil => rfl
  | cons other orbs ih =>
    rw [LocalOrb.insert, List.map_cons, LocalOrb.insert, hname, hname]
    split
    · rfl
    · rw [List.map_cons, ih]

theorem Document.entities_eq (d : Document) :
    d.entities =
      { Document.ofTree d.kind ⟨[], default⟩ with
        version := d.version, description := d.description, orbs := d.orbs.map OrbUse.unplaced
        localOrbs := d.localOrbs.map LocalOrb.entities, executors := d.executors.map Executor.unplaced
        commands := d.commands.map Command.unplaced, jobs := d.jobs.map Job.unplaced
        workflows := d.workflows.map Workflow.unplaced
        pipelineParameters := d.pipelineParameters.map Parameter.unplaced } := by
  cases d
  rw [entities, LocalOrb.entitiesOfAll_eq_map]

/-- Two documents have the same entities, section by section. -/
structure Document.SameEntities (d d' : Document) : Prop where
  kind : d.kind = d'.kind
  version : d.version = d'.version
  description : d.description = d'.description
  orbs : d.orbs.map OrbUse.unplaced = d'.orbs.map OrbUse.unplaced
  localOrbs : d.localOrbs.map LocalOrb.entities = d'.localOrbs.map LocalOrb.entities
  executors : d.executors.map Executor.unplaced = d'.executors.map Executor.unplaced
  commands : d.commands.map Command.unplaced = d'.commands.map Command.unplaced
  jobs : d.jobs.map Job.unplaced = d'.jobs.map Job.unplaced
  workflows : d.workflows.map Workflow.unplaced = d'.workflows.map Workflow.unplaced
  pipelineParameters : d.pipelineParameters.map Parameter.unplaced = d'.pipelineParameters.map Parameter.unplaced

theorem Document.entities_eq_iff {d d' : Document} : d.entities = d'.entities ↔ d.SameEntities d' := by
  simp only [entities_eq, ofTree, mk.injEq, and_true, true_and]
  constructor
  · rintro ⟨kind, version, description, orbs, localOrbs, executors, commands, jobs, workflows, parameters⟩
    exact ⟨kind, version, description, orbs, localOrbs, executors, commands, jobs, workflows, parameters⟩
  · rintro ⟨kind, version, description, orbs, localOrbs, executors, commands, jobs, workflows, parameters⟩
    exact ⟨kind, version, description, orbs, localOrbs, executors, commands, jobs, workflows, parameters⟩

end PipelineLint
