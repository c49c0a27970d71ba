import PipelineLint.Proofs.Check.UnknownOrbs

/-! # Orbs of one name in and around a local orb

The body of a local orb and the document around it may declare orbs of one name. What is asked about a name `orb/entity`
is asked of the body, and of the document around it where the body has no answer, even if the body declares the orb: an
orb that is hidden in this way can still answer.
-/

namespace PipelineLint

/-- A name of an entity of an orb, which has exactly one slash. -/
structure OrbEntity where
  orb : String
  entity : String
  orb_plain : '/' ∉ orb.toList
  entity_plain : '/' ∉ entity.toList

namespace OrbEntity

def name (n : OrbEntity) : String := n.orb ++ "/" ++ n.entity

@[simp]
theorem splitOrbName_name (n : OrbEntity) : splitOrbName n.name = some (n.orb, n.entity) :=
  Check.splitOrbName_eq_some_iff.mpr ⟨rfl, n.orb_plain, n.entity_plain⟩

end OrbEntity

namespace Check

/-- The scope without the document around it. -/
def Scope.alone (s : Scope) : Scope := { s with enclosing := none }

/-- What is asked about a name of an entity of an orb. -/
inductive Lookup where
  | command
  | job
  | executor
  /-- Whether the contents of the orb are unknown. -/
  | unknown
  | contents
  /-- The parameters of the command or job. -/
  | parameters

namespace Lookup

/-- A document has an answer: its orb has the entity, is unknown, or is known. An entity of its own can have the name
too. -/
def Answered (caches : Caches) (d : Document) (n : OrbEntity) : Lookup → Prop
  | command => ∃ info, d.orbInfo? caches n.orb = some info ∧ (info.commands.get? n.entity).isSome
  | job => ∃ info, d.orbInfo? caches n.orb = some info ∧ (info.jobs.get? n.entity).isSome
  | executor => ∃ info, d.orbInfo? caches n.orb = some info ∧ (info.executors.get? n.entity).isSome
  | unknown => ∃ use, d.orbs.get? n.orb = some use ∧ use.url.isLocal = false ∧
      (Reference.hasSubstitution use.url.version = true ∨ caches.orbs.get? use.url.id = none)
  | contents => ∃ info, d.orbInfo? caches n.orb = some info
  | parameters => (d.jobs.get? n.name).isSome ∨ (d.commands.get? n.name).isSome ∨
      ∃ info, d.orbInfo? caches n.orb = some info ∧ (info.parametersOf? n.entity).isSome

/-- Two scopes answer the same. -/
def Agrees (s t : Scope) (n : OrbEntity) : Lookup → Prop
  | command => s.isOrbCommand n.name = t.isOrbCommand n.name
  | job => s.isOrbJob n.name = t.isOrbJob n.name
  | executor => s.isOrbExecutor n.name = t.isOrbExecutor n.name
  | unknown => s.isFromUnknownOrb n.name = t.isFromUnknownOrb n.name
  | contents => s.orbInfo? n.orb = t.orbInfo? n.orb
  | parameters => s.definedParameters? n.name = t.definedParameters? n.name

variable {caches : Caches} {d : Document} {n : OrbEntity}

theorem orbEntity_iff {p : OrbInfo → String → Bool} :
    d.orbEntity caches n.name p = true ↔ ∃ info, d.orbInfo? caches n.orb = some info ∧ p info n.entity = true := by
  simp [Document.orbEntity, Option.any_eq_true]

theorem isOrbCommand_iff : d.isOrbCommand caches n.name = true ↔ command.Answered caches d n := by
  simp [Document.isOrbCommand, orbEntity_iff, Answered, NameMap.contains_eq_isSome_get?]

theorem isOrbJob_iff : d.isOrbJob caches n.name = true ↔ job.Answered caches d n := by
  simp [Document.isOrbJob, orbEntity_iff, Answered, NameMap.contains_eq_isSome_get?]

theorem isOrbExecutor_iff : d.isOrbExecutor caches n.name = true ↔ executor.Answered caches d n := by
  simp [Document.isOrbExecutor, orbEntity_iff, Answered, NameMap.contains_eq_isSome_get?]

theorem isFromUnknownOrb_document_iff : d.isFromUnknownOrb caches n.name = true ↔ unknown.Answered caches d n := by
  simp [Document.isFromUnknownOrb, Answered, Option.any_eq_true, NameMap.contains_eq_isSome_get?]

theorem orbInfo?_iff : (d.orbInfo? caches n.orb).isSome = true ↔ contents.Answered caches d n :=
  Option.isSome_iff_exists

theorem definedParameters?_iff :
    (d.definedParameters? caches n.name).isSome = true ↔ parameters.Answered caches d n := by
  rw [Document.definedParameters?, Answered, OrbEntity.splitOrbName_name]
  cases d.jobs.get? n.name with
  | some job => simp
  | none =>
    cases d.commands.get? n.name with
    | some command => simp
    | none => cases hinfo : d.orbInfo? caches n.orb <;> simp [hinfo]

/-- Where no orb of the name is declared, only an entity of the document's own can have the name. -/
theorem Answered.eq_parameters {l : Lookup} (h : l.Answered caches d n) (hnone : d.orbs.get? n.orb = none) :
    l = parameters ∧ ((d.jobs.get? n.name).isSome ∨ (d.commands.get? n.name).isSome) := by
  have hinfo : d.orbInfo? caches n.orb = none := by rw [Document.orbInfo?, hnone]
  cases l <;> simp_all [Answered]

variable {s : Scope} {o : LocalOrb}

theorem findSome?_pair {α β : Type} (f : α → Option β) (x y : α) : [x, y].findSome? f = (f x).or (f y) := by
  rw [List.findSome?_cons, List.findSome?_singleton]
  cases f x <;> rfl

theorem orbInfo?_inOrb (orb : String) : (s.inOrb o).orbInfo? orb =
    (o.document.orbInfo? s.caches orb).or (s.document.orbInfo? s.caches orb) := findSome?_pair _ _ _

theorem definedParameters?_inOrb (name : String) : (s.inOrb o).definedParameters? name =
    (o.document.definedParameters? s.caches name).or (s.document.definedParameters? s.caches name) :=
  findSome?_pair _ _ _

theorem orbInfo?_alone (orb : String) : s.alone.orbInfo? orb = s.document.orbInfo? s.caches orb :=
  List.findSome?_singleton

theorem definedParameters?_alone (name : String) :
    s.alone.definedParameters? name = s.document.definedParameters? s.caches name := List.findSome?_singleton

/-- In the body of a local orb the answer is the one without the document around, unless that has an answer where the
body has none. -/
theorem agrees_alone_iff (l : Lookup) : l.Agrees (s.inOrb o) (s.inOrb o).alone n ↔
    (l.Answered s.caches s.document n → l.Answered s.caches o.document n) := by
  have hbool (inner outer : Bool) : (inner || (outer || false)) = (inner || false) ↔ (outer = true → inner = true) := by
    cases inner <;> cases outer <;> decide
  have hoption {α : Type} (inner outer : Option α) :
      inner.or outer = inner ↔ (outer.isSome = true → inner.isSome = true) := by
    cases inner <;> cases outer <;> simp
  cases l
  case command => exact (hbool _ _).trans (imp_congr isOrbCommand_iff isOrbCommand_iff)
  case job => exact (hbool _ _).trans (imp_congr isOrbJob_iff isOrbJob_iff)
  case executor => exact (hbool _ _).trans (imp_congr isOrbExecutor_iff isOrbExecutor_iff)
  case unknown => exact (hbool _ _).trans (imp_congr isFromUnknownOrb_document_iff isFromUnknownOrb_document_iff)
  case contents =>
    rw [Agrees, orbInfo?_inOrb, orbInfo?_alone]
    exact (hoption _ _).trans (imp_congr orbInfo?_iff orbInfo?_iff)
  case parameters =>
    rw [Agrees, definedParameters?_inOrb, definedParameters?_alone]
    exact (hoption _ _).trans (imp_congr definedParameters?_iff definedParameters?_iff)

/-- Where the body has no answer, the answer is that of the document around it. -/
theorem agrees_around (l : Lookup) (h : ¬l.Answered s.caches o.document n) : l.Agrees (s.inOrb o) s.alone n := by
  have hbool {inner : Bool} (outer : Bool) (hinner : ¬inner = true) : (inner || (outer || false)) = (outer || false) := by
    simp [hinner]
  have hoption {α : Type} {inner : Option α} (outer : Option α) (hinner : ¬inner.isSome = true) :
      inner.or outer = outer := by
    simp_all
  cases l
  case command => exact hbool _ (mt isOrbCommand_iff.mp h)
  case job => exact hbool _ (mt isOrbJob_iff.mp h)
  case executor => exact hbool _ (mt isOrbExecutor_iff.mp h)
  case unknown => exact hbool _ (mt isFromUnknownOrb_document_iff.mp h)
  case contents =>
    rw [Agrees, orbInfo?_inOrb, orbInfo?_alone]
    exact hoption _ (mt orbInfo?_iff.mp h)
  case parameters =>
    rw [Agrees, definedParameters?_inOrb, definedParameters?_alone]
    exact hoption _ (mt definedParameters?_iff.mp h)

end Lookup

variable {s : Scope} {o : LocalOrb} {n : OrbEntity} {usable : Parameters} {name : String} {range parametersRange : Range}

/-- A step without values is said to have no declaration just if its name is neither that of a step nor unknown. -/
theorem step_eq_stray_iff :
    step s usable (.named ⟨name, range, [], parametersRange⟩) = [.finding ((Stray.step name).report range)] ↔
      name ≠ "" ∧ s.isFromUnknownOrb name = false ∧ s.isStepName name = false := by
  rw [step]
  split
  · next hspared =>
    refine iff_of_false (by simp) ?_
    rintro ⟨hne, hknown, -⟩
    simp [hne, hknown] at hspared
  next hspared =>
  obtain ⟨hne, hknown⟩ : name ≠ "" ∧ s.isFromUnknownOrb name = false := by simpa using hspared
  split
  · next hstep => simpa [hne, hknown] using hstep
  next hstep =>
  have hstep : s.isStepName name = true := by simpa using hstep
  refine iff_of_false (fun hstray => ?_) (by simp [hstep])
  have hcoded : ∀ {ns}, ns = [.finding ((Stray.step name).report range)] →
      ¬Coded [.missingValue, .missingParameter] (findings ns) := by
    rintro _ rfl hcoded
    simpa using hcoded _ (List.mem_singleton_self _)
  refine hcoded hstray ?_
  split
  · simp
  split
  · simp
  split
  · simp
  · next declared _ =>
    simp only [values, List.append_nil, findings_map_finding]
    exact (coded_missing _ _ _ _).mono (by simp)

theorem executorName_eq_stray_iff : executorName s name range = [(Stray.executorValue name).report range] ↔
    Reference.hasSubstitution name = false ∧ s.isFromUnknownOrb name = false ∧ s.hasExecutor name = false := by
  rw [executorName]
  split
  · next hspared =>
    refine iff_of_false (by simp) ?_
    rintro ⟨hliteral, hknown, hnone⟩
    simp [hliteral, hknown, hnone] at hspared
  · next hspared =>
    refine iff_of_true rfl ?_
    simpa [and_assoc] using hspared

/-- A step that has no declaration for the body of a local orb alone is said to have none just if the document around
does not answer in place of the body: that there is a command or a job of the name, or that the orb is unknown. -/
theorem step_stray_iff
    (halone : step (s.inOrb o).alone usable (.named ⟨n.name, range, [], parametersRange⟩) =
      [.finding ((Stray.step n.name).report range)]) :
    step (s.inOrb o) usable (.named ⟨n.name, range, [], parametersRange⟩) =
        [.finding ((Stray.step n.name).report range)] ↔
      ∀ l ∈ [Lookup.command, .job, .unknown], l.Agrees (s.inOrb o) (s.inOrb o).alone n := by
  obtain ⟨hne, hknown, hstep⟩ := step_eq_stray_iff.mp halone
  simp only [Scope.isStepName, Bool.or_eq_false_iff] at hstep
  obtain ⟨⟨⟨hown, hcommand⟩, hjob⟩, -⟩ := hstep
  have hanswers : (∀ l ∈ [Lookup.command, .job, .unknown], l.Agrees (s.inOrb o) (s.inOrb o).alone n) ↔
      (s.inOrb o).isOrbCommand n.name = false ∧ (s.inOrb o).isOrbJob n.name = false ∧
        (s.inOrb o).isFromUnknownOrb n.name = false := by
    simp [Lookup.Agrees, hcommand, hjob, hknown]
  rw [step_eq_stray_iff, hanswers]
  simp only [Scope.isStepName, Bool.or_eq_false_iff]
  constructor
  · rintro ⟨-, hknown, ⟨⟨-, hcommand⟩, hjob⟩, -⟩
    exact ⟨hcommand, hjob, hknown⟩
  · rintro ⟨hcommand, hjob, hknown⟩
    exact ⟨hne, hknown, ⟨⟨hown, hcommand⟩, hjob⟩, hknown⟩

/-- The same of a name that is given for an executor: the document around does not say that there is one of the name, or
that the orb is unknown. -/
theorem executorName_stray_iff
    (halone : executorName (s.inOrb o).alone n.name range = [(Stray.executorValue n.name).report range]) :
    executorName (s.inOrb o) n.name range = [(Stray.executorValue n.name).report range] ↔
      ∀ l ∈ [Lookup.executor, .unknown], l.Agrees (s.inOrb o) (s.inOrb o).alone n := by
  obtain ⟨hliteral, hknown, hnone⟩ := executorName_eq_stray_iff.mp halone
  obtain ⟨hown, hexecutor⟩ := Bool.or_eq_false_iff.mp hnone
  have hanswers : (∀ l ∈ [Lookup.executor, .unknown], l.Agrees (s.inOrb o) (s.inOrb o).alone n) ↔
      (s.inOrb o).isOrbExecutor n.name = false ∧ (s.inOrb o).isFromUnknownOrb n.name = false := by
    simp [Lookup.Agrees, hexecutor, hknown]
  rw [executorName_eq_stray_iff, hanswers]
  constructor
  · rintro ⟨-, hknown, hnone⟩
    exact ⟨(Bool.or_eq_false_iff.mp hnone).2, hknown⟩
  · rintro ⟨hexecutor, hknown⟩
    exact ⟨hliteral, hknown, Bool.or_eq_false_iff.mpr ⟨hown, hexecutor⟩⟩

/-- What is asked about a name in the body of a local orb is answered as if there were no document around, unless the
body has no answer and the document around has one; and where the body has none, as in the document around, whether the
body declares the orb or not. If it does not declare the orb, it has no answer but to what the parameters are, from a
job or command of its own. So a step or an executor that has no declaration in the body alone is found just if no answer
of the document around tells otherwise, which can be one about another orb of the name. -/
theorem lookups_fall_back_per_answer (s : Scope) (o : LocalOrb) (n : OrbEntity) :
    (∀ l : Lookup, l.Agrees (s.inOrb o) (s.inOrb o).alone n ↔
      (l.Answered s.caches s.document n → l.Answered s.caches o.document n)) ∧
    (∀ l : Lookup, ¬l.Answered s.caches o.document n → l.Agrees (s.inOrb o) s.alone n) ∧
    (o.document.orbs.get? n.orb = none → ∀ l : Lookup, l.Answered s.caches o.document n →
      l = .parameters ∧ ((o.document.jobs.get? n.name).isSome ∨ (o.document.commands.get? n.name).isSome)) ∧
    (∀ usable range parametersRange, let call := Step.named ⟨n.name, range, [], parametersRange⟩
      let stray := [Notice.finding ((Stray.step n.name).report range)]
      step (s.inOrb o).alone usable call = stray → (step (s.inOrb o) usable call = stray ↔
        ∀ l ∈ [Lookup.command, .job, .unknown], l.Agrees (s.inOrb o) (s.inOrb o).alone n)) ∧
    ∀ range, let stray := [(Stray.executorValue n.name).report range]
      executorName (s.inOrb o).alone n.name range = stray → (executorName (s.inOrb o) n.name range = stray ↔
        ∀ l ∈ [Lookup.executor, .unknown], l.Agrees (s.inOrb o) (s.inOrb o).alone n) :=
  ⟨Lookup.agrees_alone_iff, Lookup.agrees_around, fun hnone _ h => h.eq_parameters hnone, fun _ _ _ => step_stray_iff,
    fun _ => executorName_stray_iff⟩

/-- A configuration in which a local orb declares an orb with a command, and the document around it another orb of the
same name with another command. -/
def orbsOfOneName : String :=
  "orbs:\n  tools:\n    orbs:\n      node:\n        commands:\n          install:\n            steps: [checkout]\n" ++
    "    commands:\n      setup:\n        steps:\n          - node/greet\n" ++
    "  node:\n    commands:\n      greet:\n        steps: [checkout]\n"

def stepFindings (s : Scope) : List Diagnostic :=
  s.document.commands.values.flatMap fun c => findings (steps s c.parameters c.steps)

/-- The command of the hidden orb is taken for one of the orb that hides it. -/
theorem hidden_orb_answers :
    (bodyScope? orbsOfOneName []).map (fun t => (t.document.orbs.contains "node",
        (t.isOrbCommand "node/greet", stepFindings t),
        (t.alone.isOrbCommand "node/greet", stepFindings t.alone))) =
      some (true, (true, []), (false, [(Stray.step "node/greet").report ⟨⟨10, 12⟩, ⟨10, 22⟩⟩])) := by
  decide +kernel

end Check

end PipelineLint
