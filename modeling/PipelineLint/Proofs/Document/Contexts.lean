import PipelineLint.Concrete.Grammar.Stream
import PipelineLint.Proofs.Document.Owners
import PipelineLint.Proofs.Document.Sections

/-! # Contexts

The workflows of a document give the contexts of the jobs that they use, one after the other. A context that is given
to a job reaches the job, the commands that its steps name, and the jobs that they name where no command has the name.
Giving changes nothing else, so what a context reaches is the same throughout, and each entity has in the end the
contexts that reach it, each once, in the order in which they are given first: `contexts_exact`.
-/

namespace PipelineLint

/-- The uses of jobs in the workflows of a document, by the name of the job, each with one context after the other. -/
def Document.givenContexts (d : Document) : List (String × String) :=
  d.workflows.values.flatMap fun w => w.jobs.flatMap fun use =>
    use.contexts.map fun context => (use.jobName, context.text)

def Document.HasStepNamed (d : Document) (jobName name : String) : Prop :=
  ∃ job, d.jobs.get? jobName = some job ∧ ∃ s ∈ job.steps, s.name = name

/-- A context that is given to the first job reaches the second one: the first one is meant, or a step of it names the
second one and no command has the name. -/
def Document.ReachesJob (d : Document) (jobName name : String) : Prop :=
  jobName = name ∨ d.HasStepNamed jobName name ∧ d.commands.get? name = none

namespace Read

variable {d d' : Document} {given : List (String × String)} {context jobName name : String}

instance : Decidable (d.HasStepNamed jobName name) :=
  decidable_of_iff ((d.jobs.get? jobName).any fun job => job.steps.any (·.name == name)) <| by
    simp [Document.HasStepNamed, Option.any_eq_true]

instance : Decidable (d.ReachesJob jobName name) :=
  decidable_of_iff (jobName = name ∨ d.HasStepNamed jobName name ∧ (d.commands.get? name).isNone) <| by
    simp [Document.ReachesJob]

def addContexts (added contexts : List String) : List String :=
  added.foldl (fun contexts context => addContext context contexts) contexts

/-- Contexts that are added to none are there once each, in the order in which they come first. -/
theorem addContexts_nil (added : List String) : addContexts added [] = added.eraseDups := by
  induction added using List.reverseRecOn with
  | nil => rfl
  | append_singleton added context ih =>
    rw [addContexts, List.foldl_concat, ← addContexts, ih, eraseDups_concat, addContext]
    simp only [List.contains_iff_mem, List.mem_eraseDups]

private theorem addContext_addContext (context : String) (contexts : List String) :
    addContext context (addContext context contexts) = addContext context contexts := by
  have hmem : (addContext context contexts).contains context = true := by
    unfold addContext
    split
    · assumption
    · simp
  rw [addContext, if_pos hmem]

def withJobContexts (added : List String) (j : Job) : Job := { j with contexts := addContexts added j.contexts }

def withCommandContexts (added : List String) (c : Command) : Command :=
  { c with contexts := addContexts added c.contexts }

@[simp] theorem map_withJobContexts_nil (job? : Option Job) : job?.map (withJobContexts []) = job? :=
  congrFun Option.map_id job?

@[simp] theorem map_withCommandContexts_nil (command? : Option Command) :
    command?.map (withCommandContexts []) = command? :=
  congrFun Option.map_id command?

/-- The second document is the first one after a context was given to some entities. -/
structure GivesTo (context : String) (toJob toCommand : String → Bool) (d d' : Document) : Prop where
  workflows : d'.workflows = d.workflows
  jobs : ∀ name, d'.jobs.get? name =
    (d.jobs.get? name).map (withJobContexts (if toJob name then [context] else []))
  commands : ∀ name, d'.commands.get? name =
    (d.commands.get? name).map (withCommandContexts (if toCommand name then [context] else []))

namespace GivesTo

variable {toJob toJob' toCommand toCommand' : String → Bool} {d'' : Document}

theorem refl (context : String) (d : Document) : GivesTo context (fun _ => false) (fun _ => false) d d where
  workflows := rfl
  jobs _ := by simp
  commands _ := by simp

private theorem addContexts_twice (b b' : Bool) (contexts : List String) :
    addContexts (if b' then [context] else []) (addContexts (if b then [context] else []) contexts) =
      addContexts (if b || b' then [context] else []) contexts := by
  cases b <;> cases b' <;> simp [addContexts, addContext_addContext]

theorem trans (h : GivesTo context toJob toCommand d d') (h' : GivesTo context toJob' toCommand' d' d'') :
    GivesTo context (fun name => toJob name || toJob' name) (fun name => toCommand name || toCommand' name) d d'' where
  workflows := h'.workflows.trans h.workflows
  jobs name := by
    rw [h'.jobs, h.jobs, Option.map_map]
    refine congrArg (Option.map · _) (funext fun j => ?_)
    simp only [Function.comp_apply, withJobContexts, addContexts_twice]
  commands name := by
    rw [h'.commands, h.commands, Option.map_map]
    refine congrArg (Option.map · _) (funext fun c => ?_)
    simp only [Function.comp_apply, withCommandContexts, addContexts_twice]

private theorem isNone_commands (h : GivesTo context toJob toCommand d d') (name : String) :
    (d'.commands.get? name).isNone = (d.commands.get? name).isNone := by
  rw [h.commands, Option.isNone_map]

end GivesTo

theorem givesTo_job (context jobName : String) (d : Document) :
    GivesTo context (· == jobName) (fun _ => false) d
      { d with jobs := d.jobs.modify jobName (withJobContexts [context]) } where
  workflows := rfl
  jobs name := by
    by_cases hname : name = jobName
    · simp [hname, NameMap.get?_modify_self]
    · simp [NameMap.get?_modify_of_ne _ _ hname, hname]
  commands := (GivesTo.refl context d).commands

private theorem givesTo_command (context commandName : String) (d : Document) :
    GivesTo context (fun _ => false) (· == commandName) d
      { d with commands := d.commands.modify commandName (withCommandContexts [context]) } where
  workflows := rfl
  jobs := (GivesTo.refl context d).jobs
  commands name := by
    by_cases hname : name = commandName
    · simp [hname, NameMap.get?_modify_self]
    · simp [NameMap.get?_modify_of_ne _ _ hname, hname]

/-- Gives a context to the command of a name, or else to the job of the name. -/
def giveNamed (context : String) (d : Document) (name : String) : Document :=
  if d.commands.contains name then { d with commands := d.commands.modify name (withCommandContexts [context]) }
  else { d with jobs := d.jobs.modify name (withJobContexts [context]) }

private theorem givesTo_giveNamed (context name : String) (d : Document) :
    GivesTo context (fun n => n == name && (d.commands.get? n).isNone) (· == name) d (giveNamed context d name) := by
  have hcontains := d.commands.contains_eq_isSome_get? name
  unfold giveNamed
  split
  · next hcommand =>
    have hgiven := givesTo_command context name d
    refine ⟨hgiven.workflows, fun n => ?_, hgiven.commands⟩
    have hno : (n == name && (d.commands.get? n).isNone) = false := by
      by_cases hn : n = name
      · simpa [hn, hcommand] using hcontains
      · simp [hn]
    rw [hno]
    exact hgiven.jobs n
  · next hcommand =>
    have hgiven := givesTo_job context name d
    have hnone : d.commands.get? name = none := by simpa [hcommand] using hcontains
    refine ⟨hgiven.workflows, fun n => ?_, fun n => ?_⟩
    · have hsame : (n == name && (d.commands.get? n).isNone) = (n == name) := by
        by_cases hn : n = name <;> simp [hn, hnone]
      rw [hsame]
      exact hgiven.jobs n
    · by_cases hn : n = name
      · simp [hn, hnone]
      · simp [hn]

/-- Giving a context to what names stand for gives it to the commands of these names, and to the jobs of those of them
that no command has. -/
theorem givesTo_foldl_giveNamed (context : String) (names : List String) (d : Document) :
    GivesTo context (fun n => names.contains n && (d.commands.get? n).isNone) (names.contains ·) d
      (names.foldl (giveNamed context) d) := by
  induction names generalizing d with
  | nil => exact GivesTo.refl context d
  | cons name names ih =>
    have hfirst := givesTo_giveNamed context name d
    have hrest := hfirst.trans (ih (giveNamed context d name))
    simp only [hfirst.isNone_commands, ← Bool.and_or_distrib_right, ← List.contains_cons] at hrest
    exact hrest

/-- The second document is the first one after contexts were given: each entity has those that reach it. -/
structure Gives (given : List (String × String)) (d d' : Document) : Prop where
  workflows : d'.workflows = d.workflows
  jobs : ∀ name, d'.jobs.get? name =
    (d.jobs.get? name).map (withJobContexts ((given.filter fun g => d.ReachesJob g.1 name).map (·.2)))
  commands : ∀ name, d'.commands.get? name =
    (d.commands.get? name).map (withCommandContexts ((given.filter fun g => d.HasStepNamed g.1 name).map (·.2)))

namespace Gives

private theorem nil (d : Document) : Gives [] d d where
  workflows := rfl
  jobs _ := by simp
  commands _ := by simp

theorem hasStepNamed_iff (h : Gives given d d') : d'.HasStepNamed jobName name ↔ d.HasStepNamed jobName name := by
  simp [Document.HasStepNamed, h.jobs, withJobContexts]

/-- What a context reaches stays the same while contexts are given. -/
theorem reachesJob_iff (h : Gives given d d') : d'.ReachesJob jobName name ↔ d.ReachesJob jobName name := by
  simp [Document.ReachesJob, h.hasStepNamed_iff, h.commands]

theorem givenContexts_eq (h : Gives given d d') : d'.givenContexts = d.givenContexts := by
  rw [Document.givenContexts, h.workflows, Document.givenContexts]

private theorem trans {later : List (String × String)} {d'' : Document} (h : Gives given d d')
    (h' : Gives later d' d'') :
    Gives (given ++ later) d d'' where
  workflows := h'.workflows.trans h.workflows
  jobs name := by
    rw [h'.jobs, h.jobs, Option.map_map]
    refine congrArg (Option.map · _) (funext fun j => ?_)
    simp only [Function.comp_apply, withJobContexts, h.reachesJob_iff, List.filter_append, List.map_append, addContexts,
      List.foldl_append]
  commands name := by
    rw [h'.commands, h.commands, Option.map_map]
    refine congrArg (Option.map · _) (funext fun c => ?_)
    simp only [Function.comp_apply, withCommandContexts, h.hasStepNamed_iff, List.filter_append, List.map_append,
      addContexts, List.foldl_append]

end Gives

private theorem GivesTo.gives {toJob toCommand : String → Bool} (h : GivesTo context toJob toCommand d d')
    (hjob : ∀ name, toJob name = true ↔ d.ReachesJob jobName name)
    (hcommand : ∀ name, toCommand name = true ↔ d.HasStepNamed jobName name) : Gives [(jobName, context)] d d' where
  workflows := h.workflows
  jobs name := by
    rw [h.jobs]
    by_cases hreaches : d.ReachesJob jobName name <;> simp [hjob, hreaches]
  commands name := by
    rw [h.commands]
    by_cases hreaches : d.HasStepNamed jobName name <;> simp [hcommand, hreaches]

/-- One context reaches the job that it is given to and what the steps of the job name. -/
theorem gives_giveContext (d : Document) (jobName context : String) :
    Gives [(jobName, context)] d (giveContext d jobName context) := by
  cases hjob : d.jobs.get? jobName with
  | none =>
    have hnoStep (name : String) : ¬d.HasStepNamed jobName name := by simp [Document.HasStepNamed, hjob]
    have hsame : giveContext d jobName context = d := by simp [giveContext, hjob]
    rw [hsame]
    refine ⟨rfl, fun name => ?_, fun name => by simp [hnoStep]⟩
    by_cases hname : jobName = name
    · simp [← hname, hjob]
    · simp [Document.ReachesJob, hname, hnoStep]
  | some job =>
    have hgiven := (givesTo_job context jobName d).trans (givesTo_foldl_giveNamed context (job.steps.map Step.name) _)
    have hsame : giveContext d jobName context = (job.steps.map Step.name).foldl (giveNamed context)
        { d with jobs := d.jobs.modify jobName (withJobContexts [context]) } := by
      rw [giveContext, hjob]
      rfl
    have hstep (name : String) : (job.steps.map Step.name).contains name = true ↔ d.HasStepNamed jobName name := by
      simp [Document.HasStepNamed, hjob]
    rw [hsame]
    refine hgiven.gives (fun name => ?_) fun name => ?_
    · rw [Bool.or_eq_true, Bool.and_eq_true, beq_iff_eq, hstep, Option.isNone_iff_eq_none, Document.ReachesJob,
        eq_comm (a := name)]
    · rw [Bool.false_or, hstep]

private theorem gives_foldl (given : List (String × String)) (d : Document) :
    Gives given d (given.foldl (fun d (jobName, context) => giveContext d jobName context) d) := by
  induction given generalizing d with
  | nil => exact .nil d
  | cons g given ih => exact (gives_giveContext d g.1 g.2).trans (ih _)

private theorem gives_giveContexts (d : Document) : Gives d.givenContexts d (giveContexts d) :=
  gives_foldl d.givenContexts d

section Sections

open Yaml Reads

variable {v : View} {n : Node}

private theorem always_contexts_jobField (j : Job) (p : Pair) :
    Always (fun read => read.contexts = j.contexts) (jobField v j p) := by
  unfold jobField
  dsimp only
  repeat' split
  all_goals first
    | exact always_pure rfl
    | exact always_bind fun _ => always_pure rfl

private theorem always_contexts_commandField (c : Command) (p : Pair) :
    Always (fun read => read.contexts = c.contexts) (commandField v c p) := by
  unfold commandField
  repeat' split
  all_goals first
    | exact always_pure rfl
    | exact always_bind fun _ => always_pure rfl

private theorem always_noContexts_jobs (n : Node) : Always (fun m => ∀ j ∈ m.values, j.contexts = []) (jobs v n) := by
  rw [jobs_eq]
  have hjob (p : Pair) : Always (fun read => ∀ j ∈ read, j.contexts = []) (job v p) := by
    unfold job
    split
    · refine (always_through (I := fun j : Job => j.contexts = [])
        (fun j q _ hj => (always_contexts_jobField j q).mono fun _ h => h.trans hj) rfl).bind fun j hj => ?_
      split
      all_goals
        refine always_pure ?_
        rintro _ ⟨⟩
        exact hj
    · exact always_pure (by simp)
  exact (Section.always_values hjob _).mono fun m hm j hj => (hm j hj).elim fun _ h => h.2

private theorem always_noContexts_commands (n : Node) :
    Always (fun m => ∀ c ∈ m.values, c.contexts = []) (commands v n) := by
  rw [commands_eq]
  have hcommand (p : Pair) : Always (fun read => ∀ c ∈ read, c.contexts = []) (command v p) := by
    unfold command
    split
    · refine (always_through (I := fun c : Command => c.contexts = [])
        (fun c q _ hc => (always_contexts_commandField c q).mono fun _ h => h.trans hc) rfl).bind fun c hc =>
          always_pure ?_
      rintro _ ⟨⟩
      exact hc
    · exact always_pure (by simp)
  have hnamed (p : Pair) : Always (fun read => ∀ c ∈ read, c.contexts = []) (namedCommand v p) :=
    (hcommand p).bind fun read hread => always_pure fun c hc => hread c (Option.filter_eq_some_iff.mp hc).1
  exact (Section.always_values hnamed _).mono fun m hm c hc => (hm c hc).elim fun _ h => h.2

structure NoContexts (d : Document) : Prop where
  jobs : ∀ j ∈ d.jobs.values, j.contexts = []
  commands : ∀ c ∈ d.commands.values, c.contexts = []

private theorem always_noContexts_readSection {nested : List Char → Except Endless Document} {p : Pair}
    (h : NoContexts d) :
    Always NoContexts (readSection v nested d name p) := by
  unfold readSection
  split
  case h_7 value _ =>
    exact (always_noContexts_commands value).bind fun commands hcommands => always_pure ⟨h.jobs, hcommands⟩
  case h_9 value _ =>
    exact (always_noContexts_jobs value).bind fun jobs hjobs => always_pure ⟨hjobs, h.commands⟩
  all_goals first
    | exact always_pure ⟨h.jobs, h.commands⟩
    | exact always_bind fun _ => always_pure ⟨h.jobs, h.commands⟩

end Sections

/-- The contexts of an entity are those that uses of jobs give to it, each once and in the order in which they are given
first. `reaches` tells which jobs give it theirs. -/
structure GivenOnce (d : Document) (reaches : String → Prop) (contexts : List String) : Prop where
  mem_iff : ∀ context, context ∈ contexts ↔ ∃ w ∈ d.workflows.values, ∃ use ∈ w.jobs, reaches use.jobName ∧
    ∃ given ∈ use.contexts, given.text = context
  nodup : contexts.Nodup
  inOrder : ∀ [DecidablePred reaches],
    contexts = ((d.givenContexts.filter fun given => reaches given.1).map (·.2)).eraseDups

private theorem givenOnce_eraseDups (reaches : String → Prop) [DecidablePred reaches] :
    GivenOnce d reaches ((d.givenContexts.filter fun given => reaches given.1).map (·.2)).eraseDups where
  mem_iff context := by
    simp only [List.mem_eraseDups, List.mem_map, List.mem_filter, decide_eq_true_eq, Document.givenContexts,
      List.mem_flatMap]
    constructor
    · rintro ⟨_, ⟨⟨w, hw, use, huse, given, hgiven, rfl⟩, hreaches⟩, rfl⟩
      exact ⟨w, hw, use, huse, hreaches, given, hgiven, rfl⟩
    · rintro ⟨w, hw, use, huse, hreaches, given, hgiven, rfl⟩
      exact ⟨_, ⟨⟨w, hw, use, huse, given, hgiven, rfl⟩, hreaches⟩, rfl⟩
  nodup := nodup_eraseDups _
  inOrder := by
    intro
    congr!

/-- Each entity has the contexts that uses of jobs give to it. -/
structure ContextsGivenOnce (d : Document) : Prop where
  jobs : ∀ name job, d.jobs.get? name = some job → GivenOnce d (d.ReachesJob · name) job.contexts
  commands : ∀ name command, d.commands.get? name = some command →
    GivenOnce d (d.HasStepNamed · name) command.contexts

private theorem NoContexts.contextsGivenOnce (h : NoContexts d) (hgives : Gives d.givenContexts d d') :
    ContextsGivenOnce d' := by
  constructor
  · intro name job hjob
    obtain ⟨j, hj, rfl⟩ := Option.map_eq_some_iff.mp ((hgives.jobs name).symm.trans hjob)
    have hgiven := givenOnce_eraseDups (d := d') (d'.ReachesJob · name)
    simp only [hgives.reachesJob_iff, hgives.givenContexts_eq] at hgiven ⊢
    rwa [withJobContexts, h.jobs j (NameMap.mem_values_of_get? hj), addContexts_nil]
  · intro name command hcommand
    obtain ⟨c, hc, rfl⟩ := Option.map_eq_some_iff.mp ((hgives.commands name).symm.trans hcommand)
    have hgiven := givenOnce_eraseDups (d := d') (d'.HasStepNamed · name)
    simp only [hgives.hasStepNamed_iff, hgives.givenContexts_eq] at hgiven ⊢
    rwa [withCommandContexts, h.commands c (NameMap.mem_values_of_get? hc), addContexts_nil]

/-- The entities of a document that is read from a tree have the contexts that uses of jobs give to them: a job has
those of the uses that name it, or that name a job of which a step names it where no command has its name; and a command
has those of the uses that name a job of which a step names it. Each context is there once, in the order in which they
are given first. -/
theorem contexts_exact {nested : List Char → Except Endless Document} {kind : DocumentKind} {tree : Yaml.Tree}
    (hd : ofTreeWith nested kind tree = .ok d) : ContextsGivenOnce d := by
  have hbare : NoContexts { Document.ofTree kind tree with anchors := .ofTree tree } := by
    constructor <;> simp [Document.ofTree, values_empty]
  obtain ⟨read, findings, hread, rfl⟩ := exists_read_of_ofTreeWith hd hbare
    fun _ _ _ _ h => always_noContexts_readSection h
  -- What completes a document changes neither its workflows nor its entities.
  have hgives : Gives read.givenContexts read (complete kind tree (giveContexts read) findings) := by
    have hgives := gives_giveContexts read
    cases kind <;> exact ⟨hgives.workflows, hgives.jobs, hgives.commands⟩
  exact hread.contextsGivenOnce hgives

/-- A job is used with contexts and has steps that name a command, a job, and a job whose name a command
has as well. -/
def sharedContexts : Yaml.Tree := Yaml.Grammar.strict.tree
  ("commands: {greet: {}, test: {}}\njobs:\n  build: {steps: [greet, lint, test]}\n  lint: {}\n" ++
    "  test: {steps: [greet]}\nworkflows:\n  main:\n    jobs:\n      - build: {context: [a, b]}\n" ++
    "      - lint: {context: [c, b]}\n      - test: {context: d}\n").toList

/-- The second job that is named has the contexts of both, the third one only its own. -/
theorem contexts_exact_of_shared : ∃ d, Document.parseTree .strict .config sharedContexts = .ok d ∧
    d.jobs.values.map (fun j => (j.name, j.contexts)) = [("build", ["a", "b"]), ("lint", ["a", "b", "c"]), ("test", ["d"])] ∧
    d.commands.values.map (fun c => (c.name, c.contexts)) = [("greet", ["a", "b", "d"]), ("test", ["a", "b"])] ∧
    ContextsGivenOnce d := by
  have hcontexts : (Document.parseTree .strict .config sharedContexts).toOption.map (fun d =>
      (d.jobs.values.map fun j => (j.name, j.contexts), d.commands.values.map fun c => (c.name, c.contexts))) =
      some ([("build", ["a", "b"]), ("lint", ["a", "b", "c"]), ("test", ["d"])],
        [("greet", ["a", "b", "d"]), ("test", ["a", "b"])]) := by
    decide +kernel
  obtain ⟨d, hread, hpair⟩ := Option.map_eq_some_iff.mp hcontexts
  obtain ⟨hjobs, hcommands⟩ := Prod.mk.inj hpair
  have hd := eq_ok_of_toOption hread
  exact ⟨d, hd, hjobs, hcommands, contexts_exact hd⟩

end Read

end PipelineLint
