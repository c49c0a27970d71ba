import PipelineLint.Document.Jobs
import PipelineLint.Proofs.Document.Returns
import PipelineLint.Proofs.NameMap
import PipelineLint.Proofs.Yaml.Merge

/-! # First definitions count

The sections of jobs, commands, executors and workflows are read pair by pair. They differ in which pairs define
something, and agree in what a further definition of a name does: it is passed over, with one warning at each of both
places. So the first definition of each name counts, whatever comes between: `first_definitions_count`.
-/

namespace PipelineLint.Read

open Yaml Reads

variable {α : Type}

/-- How a section is read: what a pair defines, the name of what is defined with its place, and what is said about a
name that is defined again. -/
structure Section (α : Type) where
  entity : Pair → Reads (Option α)
  nameOf : α → String
  placeOf : α → Range
  message : String

namespace Section

variable (σ : Section α)

def add (found : NameMap α) (p : Pair) : Reads (NameMap α) := do
  match ← σ.entity p with
  | some a => insertFirst found (σ.nameOf a) a σ.placeOf σ.message
  | none => pure found

def defined (p : Pair) : Option α := (σ.entity p).given

/-- What is found in a pair, whatever stands before it. -/
def own (p : Pair) : List Diagnostic := (σ.entity p).findings

/-- What is said about a definition whose name has one: a warning at the later name that points at the first one, and
a warning at the first name. -/
def repetition (first later : α) : List Diagnostic :=
  [{ severity := .warning, code := some .duplicate, message := σ.message, range := σ.placeOf later
     labels := [⟨σ.placeOf later, "defined again here", true⟩, ⟨σ.placeOf first, "first defined here", false⟩] },
   { severity := .warning, code := some .duplicate, message := σ.message, range := σ.placeOf first }]

/-- What is said about a definition after others. -/
def repetitions (before : List α) (a : α) : List Diagnostic :=
  match before.find? (σ.nameOf · == σ.nameOf a) with
  | some first => σ.repetition first a
  | none => []

/-- What is found in pairs: in each pair itself, and then about what it defines. -/
def findings (before : List α) : List Pair → List Diagnostic
  | [] => []
  | p :: rest => match σ.defined p with
    | none => σ.own p ++ findings before rest
    | some a => σ.own p ++ σ.repetitions before a ++ findings (before ++ [a]) rest

variable {σ}
variable {found found' : NameMap α} {before : List α} {ds : List Diagnostic} {p : Pair} {pairs : List Pair}

/-- Adding an entity keeps the first definition of each name. -/
theorem insertFirst_of_holdsFirst (h : found.HoldsFirst σ.nameOf before) (a : α) :
    ∃ next : NameMap α, next.HoldsFirst σ.nameOf (before ++ [a]) ∧
      insertFirst found (σ.nameOf a) a σ.placeOf σ.message = .ok (next, σ.repetitions before a) := by
  unfold insertFirst repetitions
  rw [← h.get?]
  cases hget : found.get? (σ.nameOf a) with
  | none => exact ⟨_, h.insert hget, rfl⟩
  | some first => exact ⟨found, h.skip (by simp [hget]), rfl⟩

private theorem returns_add : Returns (σ.add found p) ↔ Returns (σ.entity p) := by
  refine returns_bind_of_returns fun entity => ?_
  cases entity with
  | none => exact returns_pure _
  | some a => exact returns_insertFirst

/-- Reading on through pairs keeps the first definition of each name. -/
theorem of_through_eq_ok (h : found.HoldsFirst σ.nameOf before)
    (hread : through σ.add found pairs = .ok (found', ds)) :
    found'.HoldsFirst σ.nameOf (before ++ pairs.filterMap σ.defined) ∧ ds = σ.findings before pairs := by
  -- What is found about a pair depends on the definitions before it, so these vary with the map.
  induction pairs generalizing found before ds with
  | nil =>
    obtain ⟨rfl, rfl⟩ := pure_eq_ok_iff.mp hread
    exact ⟨by simpa using h, rfl⟩
  | cons p pairs ih =>
    obtain ⟨next, said, after, hadd, hrest, rfl⟩ := bind_eq_ok_iff.mp hread
    obtain ⟨entity, own, told, hentity, hinsert, rfl⟩ := bind_eq_ok_iff.mp hadd
    have hown : σ.own p = own := by simp [Section.own, hentity, Reads.findings]
    have hdefined : σ.defined p = entity := by simp [defined, hentity, given]
    rw [List.filterMap_cons, findings, hdefined, hown]
    cases entity with
    | none =>
      obtain ⟨rfl, rfl⟩ := pure_eq_ok_iff.mp hinsert
      obtain ⟨hfound, rfl⟩ := ih h hrest
      exact ⟨hfound, by simp⟩
    | some a =>
      obtain ⟨_, hnext, heq⟩ := insertFirst_of_holdsFirst h a
      cases heq.symm.trans hinsert
      obtain ⟨hfound, rfl⟩ := ih hnext hrest
      exact ⟨by simpa using hfound, rfl⟩

variable {d : Diagnostic}

private theorem mem_repetitions {a : α} (h : d ∈ σ.repetitions before a) :
    ∃ first ∈ before, σ.nameOf first = σ.nameOf a ∧ d ∈ σ.repetition first a := by
  unfold repetitions at h
  split at h
  · next first hfind =>
    exact ⟨first, List.mem_of_find?_eq_some hfind, by simpa using List.find?_some hfind, h⟩
  · cases h

/-- A finding is made in a pair or about a definition that comes after one of the same name. -/
theorem mem_findings (h : d ∈ σ.findings before pairs) :
    (∃ p ∈ pairs, d ∈ σ.own p) ∨ ∃ first later, [first, later].Sublist (before ++ pairs.filterMap σ.defined) ∧
      σ.nameOf first = σ.nameOf later ∧ d ∈ σ.repetition first later := by
  induction pairs generalizing before with
  | nil => cases h
  | cons p pairs ih =>
    have hin : (∃ q ∈ pairs, d ∈ σ.own q) → ∃ q ∈ p :: pairs, d ∈ σ.own q :=
      fun ⟨q, hq, hd⟩ => ⟨q, List.mem_cons_of_mem _ hq, hd⟩
    rw [findings] at h
    rw [List.filterMap_cons]
    cases hdefined : σ.defined p with
    | none =>
      rw [hdefined] at h
      obtain h | h := List.mem_append.mp h
      · exact .inl ⟨p, List.mem_cons_self, h⟩
      · exact (ih h).imp_left hin
    | some a =>
      rw [hdefined] at h
      obtain h | h := List.mem_append.mp h
      · obtain h | h := List.mem_append.mp h
        · exact .inl ⟨p, List.mem_cons_self, h⟩
        · obtain ⟨first, hfirst, hname, hd⟩ := mem_repetitions h
          refine .inr ⟨first, a, ?_, hname, hd⟩
          exact (List.singleton_sublist.mpr hfirst).append (List.singleton_sublist.mpr List.mem_cons_self)
      · simpa using (ih h).imp_left hin

end Section

structure FirstCounts (v : View) (n : Node) (σ : Section α) (result : Reads (NameMap α)) : Prop where
  /-- What a pair defines stands under its key. -/
  named : ∀ p a, σ.defined p = some a → σ.nameOf a = v.keyText p ∧ σ.placeOf a = p.keyRange
  /-- Reading ends if it does for each pair. -/
  returns : Returns result ↔ ∀ p ∈ v.pairs n, Returns (σ.entity p)
  /-- The map holds the first definition of each name, and each later one is found once at both places. -/
  first : ∀ m ds, result = .ok (m, ds) →
    m.HoldsFirst σ.nameOf ((v.pairs n).filterMap σ.defined) ∧ ds = σ.findings [] (v.pairs n)
  /-- A repetition is found only where both definitions are written in one mapping, not for one that a merge hides. -/
  beside : ∀ m ds, result = .ok (m, ds) → ∀ d ∈ ds, (∃ p ∈ v.pairs n, d ∈ σ.own p) ∨
    ∃ mapping p q first later, [p, q].Sublist (v.directPairs mapping) ∧ σ.defined p = some first ∧
      σ.defined q = some later ∧ σ.nameOf first = σ.nameOf later ∧ d ∈ σ.repetition first later

namespace Section

variable {σ : Section α} {v : View}

/-- Definitions of one name are written in one mapping. -/
theorem pairwise_defined (named : ∀ p a, σ.defined p = some a → σ.nameOf a = v.keyText p ∧ σ.placeOf a = p.keyRange)
    (n : Node) : ((v.pairs n).filterMap σ.defined).Pairwise fun first later => σ.nameOf first = σ.nameOf later →
      ∃ mapping p q, [p, q].Sublist (v.directPairs mapping) ∧ σ.defined p = some first ∧
        σ.defined q = some later := by
  refine List.pairwise_filterMap.mpr ((v.pairwise_beside_pairs n).imp ?_)
  intro p q hbeside first hfirst later hlater hname
  obtain ⟨mapping, hsub⟩ := hbeside (by rw [← (named p first hfirst).1, ← (named q later hlater).1, hname])
  exact ⟨mapping, p, q, hsub, hfirst, hlater⟩

private theorem firstCounts (named : ∀ p a, σ.defined p = some a → σ.nameOf a = v.keyText p ∧ σ.placeOf a = p.keyRange)
    (n : Node) : FirstCounts v n σ (through σ.add ∅ (v.pairs n)) where
  named := named
  returns := by
    have hadd : ∀ found, ∀ p ∈ v.pairs n, Returns (σ.add found p) ↔ Returns (σ.entity p) := fun _ _ _ => returns_add
    exact returns_through hadd
  first m ds h := by simpa using of_through_eq_ok NameMap.HoldsFirst.empty h
  beside m ds h d hd := by
    rw [(of_through_eq_ok NameMap.HoldsFirst.empty h).2] at hd
    refine (mem_findings hd).imp_right ?_
    rintro ⟨first, later, hsub, hname, hd⟩
    obtain ⟨mapping, p, q, hpq, hp, hq⟩ :=
      List.pairwise_iff_forall_sublist.mp (pairwise_defined named n) (by simpa using hsub) hname
    exact ⟨mapping, p, q, first, later, hpq, hp, hq, hname, hd⟩

end Section

variable (v : View)

def jobSection : Section Job where
  entity := job v
  nameOf := Job.name
  placeOf := Job.nameRange
  message := "Job already defined"

/-- Reads a command; one without a name is left out. -/
def namedCommand (p : Pair) : Reads (Option Command) := do
  let read ← command v p
  pure (read.filter fun c => !c.name.isEmpty)

def commandSection : Section Command where
  entity := namedCommand v
  nameOf := Command.name
  placeOf := Command.nameRange
  message := "Command already defined"

/-- Reads an executor; one whose body is no mapping is left out. -/
def namedExecutor (p : Pair) : Reads (Option Executor) :=
  match p.key, p.value.bind v.mapping? with
  | some key, some mapping => do
    let body ← executorBody v mapping
    pure (some { body with name := v.text key, nameRange := key.range, range := p.range })
  | _, _ => pure none

def executorSection : Section Executor where
  entity := namedExecutor v
  nameOf := Executor.name
  placeOf := Executor.nameRange
  message := "Executor already defined"

/-- Reads a workflow in a configuration of some version; the key `version` is none. -/
def workflowUnlessVersion (version : Float) (p : Pair) : Reads (Option Workflow) :=
  if v.keyText p = "version" then do
    if version >= workflowVersionEnd then
      Reads.note ((Diagnostic.warning .deprecatedKey p.range
        "Version key is deprecated since 2.1").withAction
        (.replace "Delete version key" p.range ""))
    pure none
  else workflow v p

/-- How workflows are read in a configuration of some version. -/
def workflowSection (version : Float) : Section Workflow where
  entity := workflowUnlessVersion v version
  nameOf := Workflow.name
  placeOf := Workflow.nameRange
  message := "Workflow already defined"

variable (n : Node)

theorem jobs_eq : jobs v n = through (jobSection v).add ∅ (v.pairs n) := by
  refine congrArg (through · ∅ (v.pairs n)) (funext fun found => funext fun p => congrArg (job v p >>= ·) ?_)
  funext entity
  cases entity <;> rfl

theorem commands_eq : commands v n = through (commandSection v).add ∅ (v.pairs n) := by
  refine congrArg (through · ∅ (v.pairs n)) (funext fun found => funext fun p => ?_)
  refine Eq.trans (congrArg (command v p >>= ·) (funext fun entity => ?_)) (bind_pure_bind _ _ _).symm
  cases entity with
  | none => rfl
  | some c => cases hempty : c.name.isEmpty <;> simp [hempty, commandSection, Option.filter]

theorem executors_eq : executors v n = through (executorSection v).add ∅ (v.pairs n) := by
  refine congrArg (through · ∅ (v.pairs n)) (funext fun found => funext fun p => ?_)
  simp only [Section.add, executorSection, namedExecutor]
  generalize p.key = key
  generalize p.value.bind v.mapping? = mapping
  cases key with
  | none => rfl
  | some key =>
    cases mapping with
    | none => rfl
    | some mapping =>
      dsimp only
      rw [bind_pure_bind]

theorem workflows_eq (version : Float) :
    workflows v version n = through (workflowSection v version).add ∅ (v.pairs n) := by
  refine congrArg (through · ∅ (v.pairs n)) (funext fun found => funext fun p => ?_)
  simp only [Section.add, workflowSection, workflowUnlessVersion]
  split
  · split <;> rfl
  · refine congrArg (workflow v p >>= ·) (funext fun entity => ?_)
    cases entity <;> rfl

section Names

variable {v}

def HasKey (v : View) (nameOf : α → String) (placeOf : α → Range) (p : Pair) (read : Option α) : Prop :=
  ∀ a ∈ read, nameOf a = v.keyText p ∧ placeOf a = p.keyRange

private theorem Section.named_of_always {σ : Section α} (h : ∀ p, Always (HasKey v σ.nameOf σ.placeOf p) (σ.entity p)) :
    ∀ p a, σ.defined p = some a → σ.nameOf a = v.keyText p ∧ σ.placeOf a = p.keyRange := by
  intro p a hdefined
  cases hentity : σ.entity p with
  | error e => simp [defined, hentity, given] at hdefined
  | ok read =>
    obtain ⟨entity, own⟩ := read
    exact h p entity own hentity a (by simpa [defined, hentity, given] using hdefined)

/-- Reading the fields of a body keeps the name and its place. -/
theorem always_through_field {field : α → Pair → Reads α} {nameOf : α → String} {placeOf : α → Range}
    (h : ∀ a p, Always (fun read => nameOf read = nameOf a ∧ placeOf read = placeOf a) (field a p)) (bare : α)
    (pairs : List Pair) :
    Always (fun read => nameOf read = nameOf bare ∧ placeOf read = placeOf bare) (through field bare pairs) :=
  always_through (fun a p _ ⟨hname, hplace⟩ read ds hread =>
    ⟨(h a p read ds hread).1.trans hname, (h a p read ds hread).2.trans hplace⟩) ⟨rfl, rfl⟩

private theorem always_jobField (j : Job) (p : Pair) :
    Always (fun read => read.name = j.name ∧ read.nameRange = j.nameRange) (jobField v j p) := by
  unfold jobField
  dsimp only
  repeat' split
  all_goals first
    | exact always_pure ⟨rfl, rfl⟩
    | exact always_bind fun _ => always_pure ⟨rfl, rfl⟩

private theorem always_commandField (c : Command) (p : Pair) :
    Always (fun read => read.name = c.name ∧ read.nameRange = c.nameRange) (commandField v c p) := by
  unfold commandField
  repeat' split
  all_goals first
    | exact always_pure ⟨rfl, rfl⟩
    | exact always_bind fun _ => always_pure ⟨rfl, rfl⟩

private theorem always_workflowField (w : Workflow) (p : Pair) :
    Always (fun read => read.name = w.name ∧ read.nameRange = w.nameRange) (workflowField v w p) := by
  unfold workflowField
  repeat' split
  all_goals first
    | exact always_pure ⟨rfl, rfl⟩
    | exact always_bind fun _ => always_pure ⟨rfl, rfl⟩

theorem hasKey_none {nameOf : α → String} {placeOf : α → Range} {p : Pair} : HasKey v nameOf placeOf p none := nofun

theorem hasKey_some {nameOf : α → String} {placeOf : α → Range} {p : Pair} {key : Node} (hkey : p.key = some key)
    {a : α} (h : nameOf a = v.text key ∧ placeOf a = key.range) : HasKey v nameOf placeOf p (some a) := by
  rintro b hb
  obtain rfl := Option.some.inj hb
  simpa [View.keyText, View.textOrEmpty, Pair.keyRange, hkey] using h

private theorem always_job (p : Pair) : Always (HasKey v Job.name Job.nameRange p) (job v p) := by
  unfold job
  split
  · next key mapping hkey _ =>
    refine (always_through_field always_jobField _ _).bind fun read hread => ?_
    split <;> exact always_pure (hasKey_some hkey hread)
  · exact always_pure hasKey_none

private theorem always_namedCommand (p : Pair) :
    Always (HasKey v Command.name Command.nameRange p) (namedCommand v p) := by
  have hcommand : Always (HasKey v Command.name Command.nameRange p) (command v p) := by
    unfold command
    split
    · next key mapping hkey _ =>
      exact (always_through_field always_commandField _ _).bind fun read hread =>
        always_pure (hasKey_some hkey hread)
    · exact always_pure hasKey_none
  exact hcommand.bind fun read hread => always_pure fun c hc => hread c (Option.filter_eq_some_iff.mp hc).1

private theorem always_namedExecutor (p : Pair) :
    Always (HasKey v Executor.name Executor.nameRange p) (namedExecutor v p) := by
  unfold namedExecutor
  split
  · next key mapping hkey _ => exact always_bind fun body => always_pure (hasKey_some hkey ⟨rfl, rfl⟩)
  · exact always_pure hasKey_none

private theorem always_workflowUnlessVersion (version : Float) (p : Pair) :
    Always (HasKey v Workflow.name Workflow.nameRange p) (workflowUnlessVersion v version p) := by
  unfold workflowUnlessVersion
  split
  · split
    · exact always_bind fun _ => always_pure hasKey_none
    · exact always_pure hasKey_none
  · unfold workflow
    split
    · next key value hkey _ =>
      exact (always_through_field always_workflowField _ _).bind fun read hread =>
        always_pure (hasKey_some hkey hread)
    · exact always_pure hasKey_none

end Names

/-- In each section of things with names the first definition of a name counts, and each later one is found at both
places: jobs, commands, executors and workflows. -/
theorem first_definitions_count (v : View) (n : Node) (version : Float) :
    FirstCounts v n (jobSection v) (jobs v n) ∧ FirstCounts v n (commandSection v) (commands v n) ∧
      FirstCounts v n (executorSection v) (executors v n) ∧
      FirstCounts v n (workflowSection v version) (workflows v version n) := by
  rw [jobs_eq, commands_eq, executors_eq, workflows_eq]
  -- The four agree in how they put together what they read, so each is settled by the names that it reads.
  exact ⟨Section.firstCounts (Section.named_of_always always_job) n,
    Section.firstCounts (Section.named_of_always always_namedCommand) n,
    Section.firstCounts (Section.named_of_always always_namedExecutor) n,
    Section.firstCounts (Section.named_of_always (always_workflowUnlessVersion version)) n⟩

end PipelineLint.Read
