import PipelineLint.Concrete.Host
import PipelineLint.Proofs.Check.UnknownOrbs
import PipelineLint.Proofs.Check.Unused

/-! # Unused orbs

Names `orb/entity` stand at many sites, and most of them are looked up: the checks seek the entity in the orbs of the
document, and for the body of a local orb in those of the document around it too. The search for uses of an orb knows
fewer sites: the steps of a document, the executors that its jobs name, and the jobs that its workflows use. `Refers`
lists all sites. What the search finds counts, but it never looks into local orbs, nor at the sites that `isOverlooked`
tells.
-/

namespace PipelineLint

namespace Check

open Step

/-- Where a name that can be that of an entity of an orb stands. -/
inductive Site where
  /-- A step of a job or command, or one that a workflow puts around a job. -/
  | step
  /-- A step inside a value that a workflow gives to a job, or a job to its executor. -/
  | givenStep
  /-- An item of a list that is given for steps. -/
  | stepItem
  /-- The executor that a job names. -/
  | executor
  | executorValue
  /-- The default of a parameter that a job uses as its executor. -/
  | executorDefault
  /-- A job that a workflow uses. -/
  | job
  deriving DecidableEq, Repr

/-- The search for uses of an orb does not look at the site. -/
def Site.isOverlooked : Site → Bool
  | .step | .executor | .job => false
  | .givenStep | .stepItem | .executorValue | .executorDefault => true

/-- An executor of the document or of an orb, as a job names it. -/
def Scope.executorOf? (t : Scope) (name : String) : Option Executor :=
  t.document.executors.get? name <|> do
    let (orb, entity) ← splitOrbName name
    let info ← t.orbInfo? orb
    info.executors.get? entity

inductive GivenTo (t : Scope) : Parameter → Value → Prop where
  | step {call : Invocation} {declared : Parameters} {a : Assignment} {p : Parameter}
      (stands : StandsIn t.document (.named call) ∨ StandsInGiven t.document (.named call))
      (defined : t.definedParameters? call.name = some declared) (given : a ∈ call.parameters)
      (typed : declared.get? a.name = some p) : GivenTo t p a.value
  | job {use : JobUse} {declared : Parameters} {a : Assignment} {p : Parameter} (uses : use ∈ jobUses t.document)
      (defined : t.definedParameters? use.jobName = some declared) (given : a ∈ use.parameters)
      (typed : declared.get? a.name = some p) : GivenTo t p a.value
  | matrix {use : JobUse} {declared : Parameters} {a item : Assignment} {items : List Assignment} {p : Parameter}
      (uses : use ∈ jobUses t.document) (defined : t.definedParameters? use.jobName = some declared)
      (given : a ∈ use.matrix) (listed : a.value = .list items) (member : item ∈ items)
      (typed : declared.get? a.name = some p) : GivenTo t p item.value
  | executor {j : Job} {use : ExecutorUse} {e : Executor} {a : Assignment} {p : Parameter}
      (names : (j, use) ∈ executorUses t.document) (defined : t.executorOf? use.name = some e)
      (given : a ∈ use.parameters) (typed : e.parameters.get? a.name = some p) : GivenTo t p a.value

inductive Refers (t : Scope) : Site → String → Prop where
  | step {call : Invocation} (stands : StandsIn t.document (.named call)) : Refers t .step call.name
  | givenStep {call : Invocation} (stands : StandsInGiven t.document (.named call)) : Refers t .givenStep call.name
  | stepItem {p : Parameter} {default : List Step} {items : List Assignment} {item : Assignment} {name : String}
      (given : GivenTo t p (.list items)) (typed : p.type = .steps default) (member : item ∈ items)
      (text : item.value = .text name) : Refers t .stepItem name
  | executor {j : Job} {use : ExecutorUse} (names : (j, use) ∈ executorUses t.document) :
      Refers t .executor use.name
  | executorValue {p : Parameter} {default : Option String} {name : String} (given : GivenTo t p (.text name))
      (typed : p.type = .executor default) : Refers t .executorValue name
  | executorEntry {p : Parameter} {default : Option String} {fields : List Assignment} {a : Assignment} {name : String}
      (given : GivenTo t p (.map fields)) (typed : p.type = .executor default)
      (entry : Assignments.get? fields "name" = some a) (text : a.value = .text name) : Refers t .executorValue name
  | executorDefault {j : Job} {use : ExecutorUse} {p : Parameter} {name : String}
      (names : (j, use) ∈ executorUses t.document) (parameter : t.referenced? j.parameters use.name = some p)
      (typed : p.type = .executor (some name)) : Refers t .executorDefault name
  | job {use : JobUse} (uses : use ∈ jobUses t.document) : Refers t .job use.jobName

/-- A name leads to an entity of an orb of the document, which can be seen from the scope. -/
structure LeadsInto (t : Scope) (d : Document) (name orb : String) : Prop where
  seen : d ∈ t.documents
  entity : ∃ entity info, splitOrbName name = some (orb, entity) ∧ d.orbInfo? t.caches orb = some info ∧
    (info.commands.contains entity = true ∨ info.jobs.contains entity = true ∨ info.executors.contains entity = true)

variable {d : Document} {orb name : String} {s : Scope}

theorem isStepOfOrb_eq_true_iff {st : Step} :
    isStepOfOrb orb st = true ↔ ∃ rest, st.name = orb ++ "/" ++ rest ∧ '/' ∉ orb.toList := by
  rw [isStepOfOrb]
  constructor
  · intro h
    split at h
    · next start rest hcut =>
      obtain ⟨heq, hnone⟩ := Text.cut?_singleton_eq_some_iff.mp hcut
      obtain rfl : String.ofList start = orb := by simpa using h
      refine ⟨String.ofList rest, ?_, by simpa using hnone⟩
      rw [← String.toList_inj, heq]
      simp
    · cases h
  · rintro ⟨rest, heq, hnone⟩
    have hlist : st.name.toList = orb.toList ++ '/' :: rest.toList := by simp [heq]
    rw [Text.cut?_singleton_eq_some_iff.mpr ⟨hlist, hnone⟩]
    simp

theorem isNameOfOrb_eq_true_iff : d.isNameOfOrb name orb = true ↔
    d.orbs.contains orb = true ∧ ∃ entity, splitOrbName name = some (orb, entity) := by
  rw [Document.isNameOfOrb, Document.isOrbName]
  cases splitOrbName name with
  | none => simp
  | some parts =>
    obtain ⟨prefixed, entity⟩ := parts
    simp only [Option.any_some, Bool.and_eq_true, beq_iff_eq, Option.some.injEq, Prod.mk.injEq]
    constructor
    · rintro ⟨hcontains, rfl⟩
      exact ⟨hcontains, entity, rfl, rfl⟩
    · rintro ⟨hcontains, _, rfl, -⟩
      exact ⟨hcontains, rfl⟩

/-- The search for uses of an orb finds any step whose name starts with that of the orb and a slash, and names of
entities of the orb as executors of jobs and as jobs of workflows. -/
theorem isOrbUsed_iff : isOrbUsed d orb = true ↔
    (∃ st, StandsIn d st ∧ ∃ rest, st.name = orb ++ "/" ++ rest ∧ '/' ∉ orb.toList) ∨
    (∃ j use, (j, use) ∈ executorUses d ∧ d.isNameOfOrb use.name orb = true) ∨
    ∃ use ∈ jobUses d, d.isNameOfOrb use.jobName orb = true := by
  have hsteps : (jobSteps d ++ commandSteps d ++ aroundSteps d).any (anyStep (isStepOfOrb orb)) = true ↔
      ∃ st, StandsIn d st ∧ ∃ rest, st.name = orb ++ "/" ++ rest ∧ '/' ∉ orb.toList := by
    simp only [any_anyStep_iff, isStepOfOrb_eq_true_iff, StandsIn, ownSteps]
  have hexecutors : d.jobs.values.any (fun j => j.executor.any fun use => d.isNameOfOrb use.name orb) = true ↔
      ∃ j use, (j, use) ∈ executorUses d ∧ d.isNameOfOrb use.name orb = true := by
    simp only [List.any_eq_true, Option.any_eq_true, mem_executorUses_iff, and_assoc]
    constructor
    · rintro ⟨j, hj, use, huse, hname⟩
      exact ⟨j, use, hj, huse, hname⟩
    · rintro ⟨j, use, hj, huse, hname⟩
      exact ⟨j, hj, use, huse, hname⟩
  rw [isOrbUsed, Bool.or_eq_true, Bool.or_eq_true, hsteps, hexecutors, List.any_eq_true, or_assoc]

/-- A name that stands in the document itself at a site that is not overlooked counts as a use of the declared orb that
it names. -/
theorem isOrbUsed_of_refers {site : Site} {entity : String} (hrefers : Refers s site name)
    (hsite : site.isOverlooked = false) (hsplit : splitOrbName name = some (orb, entity))
    (hdeclared : s.document.orbs.contains orb = true) : isOrbUsed s.document orb = true := by
  have hname : s.document.isNameOfOrb name orb = true := isNameOfOrb_eq_true_iff.mpr ⟨hdeclared, entity, hsplit⟩
  cases hrefers with
  | step stands =>
    obtain ⟨heq, hnone, -⟩ := splitOrbName_eq_some_iff.mp hsplit
    exact isOrbUsed_iff.mpr (.inl ⟨_, stands, entity, heq, hnone⟩)
  | executor names => exact isOrbUsed_iff.mpr (.inr (.inl ⟨_, _, names, hname⟩))
  | job uses => exact isOrbUsed_iff.mpr (.inr (.inr ⟨_, uses, hname⟩))
  | givenStep | stepItem | executorValue | executorEntry | executorDefault => cases hsite

private theorem LeadsInto.contains {t : Scope} (h : LeadsInto t d name orb) : d.orbs.contains orb = true := by
  obtain ⟨entity, info, -, hinfo, -⟩ := h.entity
  rw [NameMap.contains_eq_isSome_get?]
  cases hget : d.orbs.get? orb with
  | none => simp [Document.orbInfo?, hget] at hinfo
  | some use => rfl

/-- Where the search for uses of an orb overlooks a name that leads into it, the name stands in a local orb or at a
site that is overlooked. -/
theorem isOrbUsed_or_overlooked {t : Scope} (ht : t ∈ scopes s) {site : Site} (hrefers : Refers t site name)
    (hleads : LeadsInto t s.document name orb) :
    isOrbUsed s.document orb = true ∨ site.isOverlooked = true ∨ t.isLocalOrb = true := by
  obtain rfl | ht := List.mem_cons.mp ht
  · cases hsite : site.isOverlooked with
    | true => exact .inr (.inl rfl)
    | false =>
      obtain ⟨entity, info, hsplit, -⟩ := hleads.entity
      exact .inl (isOrbUsed_of_refers hrefers hsite hsplit hleads.contains)
  · obtain ⟨o, -, rfl⟩ := List.mem_map.mp ht
    exact .inr (.inr rfl)

/-- The warning about an orb that nothing refers to. -/
def unusedOrbWarning (use : OrbUse) : Diagnostic := unused .warning "Orb is unused" use.nameRange

private theorem filter_unusedWarnings_orbs : (unusedWarnings s).filter (isUnusedAs "Orb is unused") =
    if s.settings.findsUnused then
      (s.document.orbs.values.filter fun use => !isOrbUsed s.document use.name).map unusedOrbWarning
    else [] := by
  have hanchors : (findings (anchors s)).filter (isUnusedAs "Orb is unused") = [] := filter_anchors_eq_nil (by decide)
  have hcommands (t : Scope) (c : Command) : (unusedCommand t c).filter (isUnusedAs "Orb is unused") = [] :=
    filter_unusedCommand_eq_nil (by decide) c
  have hjobs (t : Scope) (j : Job) : (unusedJob t j).filter (isUnusedAs "Orb is unused") = [] := by
    unfold unusedJob
    split <;> simp
  have horbs (use : OrbUse) : (unusedOrb s use).filter (isUnusedAs "Orb is unused") =
      if s.settings.findsUnused && !isOrbUsed s.document use.name then [unusedOrbWarning use] else [] := by
    unfold unusedOrb
    split <;> simp_all [unusedOrbWarning]
  have hnone {α β : Type} (xs : List α) : (xs.flatMap fun _ => []) = ([] : List β) := by simp
  simp only [unusedWarnings, List.filter_append, List.filter_flatMap, hanchors, hjobs, hcommands, horbs, hnone,
    List.nil_append, List.append_nil]
  rw [flatMap_ite_singleton s.settings.findsUnused (fun use => !isOrbUsed s.document use.name) unusedOrbWarning]

private theorem standsIn_of_any (h : (ownSteps d).any (anyStep (invokes name)) = true) :
    ∃ call : Invocation, StandsIn d (.named call) ∧ call.name = name := by
  obtain ⟨st, hstands, hinvokes⟩ := any_anyStep_iff.mp h
  obtain ⟨hname, call, rfl⟩ := invokes_eq_true_iff.mp hinvokes
  exact ⟨call, hstands, hname⟩

/-- The scope of a configuration that declares a registry orb with the command `install`, and a local orb in which a
step invokes that command. -/
def sharedOrb? : Option Scope :=
  let node : OrbInfo :=
    { id := "acme/node@1.0.0", version := "1.0.0", commands := .ofList [("install", { name := "install" })] }
  (Document.parse .strict ("orbs:\n  node: acme/node@1.0.0\n  tools:\n    commands:\n      greet:\n" ++
    "        steps:\n          - node/install\n").toList).toOption.map fun d =>
    { settings := {}, caches := Caches.insertOrb {} node, failures := ∅, document := d }

/-- A step in a local orb invokes a command of an orb of the document around it, and that orb is said to be unused. -/
theorem orb_of_localOrb_unused : ∃ s, sharedOrb? = some s ∧ ∃ o ∈ s.document.localOrbs,
    Refers (s.inOrb o) .step "node/install" ∧ LeadsInto (s.inOrb o) s.document "node/install" "node" ∧
      unused .warning "Orb is unused" ⟨⟨1, 2⟩, ⟨1, 6⟩⟩ ∈ findings (document .standard none s) := by
  have hcheck : sharedOrb?.any (fun s =>
      (s.document.localOrbs.any fun o => (ownSteps o.document).any (anyStep (invokes "node/install"))) &&
        (s.document.orbInfo? s.caches "node").any (·.commands.contains "install") &&
        decide (unused .warning "Orb is unused" ⟨⟨1, 2⟩, ⟨1, 6⟩⟩ ∈ findings (document .standard none s))) = true := by
    decide +kernel
  obtain ⟨s, hsome, hs⟩ := (Option.any_eq_true _ _).mp hcheck
  simp only [Bool.and_eq_true, decide_eq_true_eq, List.any_eq_true, Option.any_eq_true] at hs
  obtain ⟨⟨⟨o, ho, hsteps⟩, info, hinfo, hcommand⟩, hfound⟩ := hs
  obtain ⟨call, hstands, hname⟩ := standsIn_of_any (List.any_eq_true.mpr hsteps)
  refine ⟨s, hsome, o, ho, hname ▸ .step hstands, ⟨?_, "install", info, rfl, hinfo, .inl hcommand⟩, hfound⟩
  simp [Scope.documents, Scope.inOrb]

end Check

namespace Analyzer

open Check

/-- Of the findings of an analysis those that say that an orb is unused are one for each declared orb, in order, of
which the search finds no use. It finds what stands at three sites of the document, so that such a warning is right
about these; names that lead into the orb may still stand in local orbs and at the other sites. -/
theorem unusedOrbs_found (a : Analyzer) (session : Session) (d : Document) :
    (∃ found, (a.check session d).1 = d.addFindings found ∧
      found.filter (isUnusedAs "Orb is unused") =
        if a.settings.findsUnused then (d.orbs.values.filter fun use => !isOrbUsed d use.name).map unusedOrbWarning
        else []) ∧
    (∀ orb, isOrbUsed d orb = true ↔
      (∃ st, StandsIn d st ∧ ∃ rest, st.name = orb ++ "/" ++ rest ∧ '/' ∉ orb.toList) ∨
      (∃ j use, (j, use) ∈ executorUses d ∧ d.isNameOfOrb use.name orb = true) ∨
      ∃ use ∈ jobUses d, d.isNameOfOrb use.jobName orb = true) ∧
    ∀ s : Check.Scope, s.document = d → ∀ t ∈ scopes s, ∀ site name orb, Refers t site name →
      LeadsInto t d name orb → isOrbUsed d orb = true ∨ site.isOverlooked = true ∨ t.isLocalOrb = true := by
  obtain ⟨scope, found, hcheck, hsettings, rfl, -, hfound⟩ := a.exists_found session d
  refine ⟨⟨found, hcheck, ?_⟩, fun orb => isOrbUsed_iff, ?_⟩
  · rw [hfound, filter_unusedWarnings_orbs, hsettings]
  · rintro s hs t ht site name orb hrefers hleads
    rw [← hs] at hleads ⊢
    exact isOrbUsed_or_overlooked ht hrefers hleads

end Analyzer

end PipelineLint
