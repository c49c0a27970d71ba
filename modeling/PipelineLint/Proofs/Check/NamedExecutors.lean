import PipelineLint.Concrete.Host
import PipelineLint.Proofs.Check.UnknownOrbs
import PipelineLint.Proofs.Document.LocalOrb
import PipelineLint.Proofs.Reference.Scan

/-! # Three ways of naming an executor

An executor is named by a job, by a value for an executor parameter, or by the default of a parameter that a job has for
its executor. A missing executor is found in each way, by a check of its own. They agree on names that are written out
and that do not lead into different orbs of one name; else they need not: the default is not looked at for
substitutions, and a job is content only with the first orb that is known.
-/

namespace PipelineLint

namespace Check

def saysMissing (d : Diagnostic) : Bool := d.code == some .undefinedExecutor || d.code == some .undefinedOrb

/-- A missing executor is found. -/
def Reports (ns : List Notice) : Prop := ∃ d ∈ findings ns, saysMissing d = true

/-- No executor in sight has the name, and it leads into no unknown orb. -/
def Absent (s : Scope) (name : String) : Prop := s.hasExecutor name = false ∧ s.isFromUnknownOrb name = false

/-- The document has no executor of the name, and the first orb that is known by the name before the slash has none of
the name behind it. -/
def MissedFirst (s : Scope) (name : String) : Prop :=
  s.document.executors.get? name = none ∧ ∃ orb entity info, splitOrbName name = some (orb, entity) ∧
    s.orbInfo? orb = some info ∧ info.executors.get? entity = none

variable {s : Scope} {usable : Parameters} {p : Parameter} {name entity : String} {range : Range} {j : Job}
  {use : ExecutorUse}

theorem Coded.not_reports {codes : List Code} {ns : List Notice} (h : Coded codes (findings ns))
    (hnone : codes.any (fun c => c == .undefinedExecutor || c == .undefinedOrb) = false) : ¬Reports ns := by
  rintro ⟨d, hd, hmissing⟩
  have hcode := h.any_eq_false hnone d hd
  rw [saysMissing] at hmissing
  cases hc : d.code <;> simp_all

theorem not_reports_nil : ¬Reports [] := by simp [Reports]

theorem reports_undefinedExecutor {message : String} :
    Reports [.finding (.error .undefinedExecutor range message)] :=
  ⟨_, List.mem_singleton_self _, rfl⟩

private theorem reports_undefinedOrb {message : String} : Reports [.finding (.error .undefinedOrb range message)] :=
  ⟨_, List.mem_singleton_self _, rfl⟩

theorem not_reports_call (declared : Parameters) : ¬Reports (call s usable entity range declared []) := by
  have hcoded : Coded [.missingParameter] (findings (call s usable entity range declared [])) := by
    simp only [call, values, List.append_nil, findings_map_finding]
    exact coded_missing _ _ _ _
  exact hcoded.not_reports rfl

/-- A value for an executor parameter is found missing if it is written out and absent. -/
theorem reports_value_iff {default : Option String} (htype : p.type = .executor default) :
    Reports (value s usable p entity range (.text name)) ↔ Reference.hasSubstitution name = false ∧ Absent s name := by
  rw [value, htype]
  split
  · next honly =>
    have hsubstitution := Reference.hasSubstitution_of_occursIn (Reference.occursIn_of_isOnly honly)
    have hcoded : Coded [.typeMismatch] (findings ((referenceValue s usable p entity range name).map .finding)) := by
      simpa using coded_referenceValue usable p entity range name
    simpa [hsubstitution] using hcoded.not_reports rfl
  split
  · next hsubstitution => simp [hsubstitution, not_reports_nil]
  · next hliteral =>
    have hliteral : Reference.hasSubstitution name = false := by simpa using hliteral
    simp only [plainValue, htype, executorValue, executorName, hliteral, Bool.false_or, Absent, true_and]
    cases s.isFromUnknownOrb name <;> cases s.hasExecutor name <;>
      simp [not_reports_nil, reports_undefinedExecutor]

/-- An executor that a job names by a reference is found missing if the reference means an executor parameter with a
default that is absent, written out or not. -/
theorem reports_reference_iff (hhost : s.settings.usesDefaultHost = true) (honly : Reference.isOnly use.name = true) :
    Reports (jobExecutor s j use) ↔ ∃ p name, s.referenced? j.parameters use.name = some p ∧
      p.type = .executor (some name) ∧ p.isOptional = true ∧ Absent s name := by
  rw [jobExecutor, if_pos honly, executorParameter]
  cases hmeant : s.referenced? j.parameters use.name with
  | none => simp [not_reports_nil]
  | some p =>
    have huncoded : ∀ message, ¬Reports [.finding { severity := .warning, range := use.range, message }] :=
      fun message => by simp [Reports, findings, saysMissing]
    cases htype : p.type with
    | executor default =>
      cases default with
      | none => simp [huncoded, htype]
      | some name =>
        cases hoptional : p.isOptional with
        | false => simp [htype, huncoded, hoptional]
        | true =>
          cases hfound : s.hasExecutor name <;> cases hunknown : s.isFromUnknownOrb name <;>
            simp [htype, hoptional, hhost, hfound, hunknown, Absent, not_reports_nil, reports_undefinedExecutor]
    | _ => simp [htype, not_reports_nil]

/-- A document in which an orb is declared and not known does not know what a name into it means. -/
theorem isFromUnknownOrb_of_orbInfo?_eq_none {d : Document} {caches : Caches} {orb : String}
    (hbodies : Read.HasBodies (Read.orbsOf d))
    (hsplit : splitOrbName name = some (orb, entity)) (hdeclared : (d.orbs.get? orb).isSome = true)
    (hinfo : d.orbInfo? caches orb = none) : d.isFromUnknownOrb caches name = true := by
  obtain ⟨declared, hget⟩ := Option.isSome_iff_exists.mp hdeclared
  rw [Document.orbInfo?, hget] at hinfo
  cases hlocal : declared.url.isLocal with
  | true =>
    obtain ⟨o, ho⟩ := Option.isSome_iff_exists.mp (hbodies orb declared hget hlocal)
    simp [hlocal, Document.localOrbInfo?, show LocalOrb.find? d.localOrbs orb = some o from ho] at hinfo
  | false =>
    simp only [hlocal, Bool.false_eq_true, if_false] at hinfo
    simp [Document.isFromUnknownOrb, hsplit, hget, hlocal, NameMap.contains_eq_isSome_get?, hinfo]

private theorem isFromUnknownOrb_of_isOrbName {orb : String}
    (hbodies : ∀ d ∈ s.documents, Read.HasBodies (Read.orbsOf d))
    (hsplit : splitOrbName name = some (orb, entity)) (horb : s.isOrbName name = true)
    (hinfo : s.orbInfo? orb = none) : s.isFromUnknownOrb name = true := by
  obtain ⟨d, hd, hdeclared⟩ := List.any_eq_true.mp horb
  have hdeclared : (d.orbs.get? orb).isSome = true := by
    simpa [Document.isOrbName, hsplit, NameMap.contains_eq_isSome_get?] using hdeclared
  have hnone : d.orbInfo? s.caches orb = none := List.findSome?_eq_none_iff.mp hinfo d hd
  exact List.any_eq_true.mpr ⟨d, hd, isFromUnknownOrb_of_orbInfo?_eq_none (hbodies d hd) hsplit hdeclared hnone⟩

theorem absent_iff (hown : s.document.executors.get? name = none) :
    Absent s name ↔ s.isOrbExecutor name = false ∧ s.isFromUnknownOrb name = false := by
  simp [Absent, Scope.hasExecutor, NameMap.contains_eq_isSome_get?, hown]

private theorem absent_of_isOrbName_eq_false (hown : s.document.executors.get? name = none)
    (horb : s.isOrbName name = false) : Absent s name := by
  rw [absent_iff hown, Scope.isOrbExecutor, Scope.isFromUnknownOrb, List.any_eq_false, List.any_eq_false]
  rw [Scope.isOrbName, List.any_eq_false] at horb
  cases hsplit : splitOrbName name with
  | none => simp [Document.isOrbExecutor, Document.orbEntity, Document.isFromUnknownOrb, hsplit]
  | some parts =>
    have hundeclared : ∀ d ∈ s.documents, d.orbs.get? parts.1 = none := fun d hd => by
      simpa [Document.isOrbName, hsplit, NameMap.contains_eq_isSome_get?] using horb d hd
    constructor
    · intro d hd
      simp [Document.isOrbExecutor, Document.orbEntity, hsplit, Document.orbInfo?, hundeclared d hd]
    · intro d hd
      simp [Document.isFromUnknownOrb, hsplit, hundeclared d hd]

private theorem isOrbExecutor_of_orbInfo? {orb : String} {info : OrbInfo}
    (hsplit : splitOrbName name = some (orb, entity))
    (hinfo : s.orbInfo? orb = some info) (hentity : (info.executors.get? entity).isSome = true) :
    s.isOrbExecutor name = true := by
  obtain ⟨d, hd, hfound⟩ := List.exists_of_findSome?_eq_some hinfo
  refine List.any_eq_true.mpr ⟨d, hd, ?_⟩
  simp [Document.isOrbExecutor, Document.orbEntity, hsplit, hfound, NameMap.contains_eq_isSome_get?, hentity]

theorem missedFirst_iff {orb : String} (hown : s.document.executors.get? name = none)
    (hsplit : splitOrbName name = some (orb, entity)) :
    MissedFirst s name ↔ ∃ info, s.orbInfo? orb = some info ∧ info.executors.get? entity = none := by
  simp [MissedFirst, hown, hsplit]

theorem reports_foreignExecutor_iff (hbodies : ∀ d ∈ s.documents, Read.HasBodies (Read.orbsOf d))
    (hown : s.document.executors.get? use.name = none) (hgiven : use.parameters = []) :
    Reports (foreignExecutor s j use) ↔ Absent s use.name ∨ MissedFirst s use.name := by
  cases hsplit : splitOrbName use.name with
  | none =>
    have habsent := absent_of_isOrbName_eq_false hown (by simp [Scope.isOrbName, Document.isOrbName, hsplit])
    simp [foreignExecutor, hsplit, reports_undefinedExecutor, habsent]
  | some parts =>
    obtain ⟨orb, entity⟩ := parts
    rw [missedFirst_iff hown hsplit]
    cases horb : s.isOrbName use.name with
    | false =>
      have habsent := absent_of_isOrbName_eq_false hown horb
      simp [foreignExecutor, horb, hsplit, reports_undefinedOrb, habsent]
    | true =>
      cases hinfo : s.orbInfo? orb with
      | some info =>
        cases hentity : info.executors.get? entity with
        | some found =>
          have hpresent : s.isOrbExecutor use.name = true := isOrbExecutor_of_orbInfo? hsplit hinfo (by simp [hentity])
          simp [foreignExecutor, horb, hsplit, hinfo, hentity, hgiven, not_reports_call, absent_iff hown, hpresent]
        | none => simp [foreignExecutor, horb, hsplit, hinfo, hentity, reports_undefinedExecutor]
      | none =>
        have hquiet : ¬Reports (foreignExecutor s j use) := by
          have hcoded : Coded [.orbUnavailable] (findings (foreignExecutor s j use)) := by
            simp only [foreignExecutor, horb, hsplit, hinfo]
            split <;> simp
          exact hcoded.not_reports rfl
        have hunknown := isFromUnknownOrb_of_isOrbName hbodies hsplit horb hinfo
        simp [hquiet, absent_iff hown, hunknown]

/-- An executor that a job names is found missing if its name is written out and it is absent, or not in the first orb
of its name. -/
theorem reports_direct_iff (hbodies : ∀ d ∈ s.documents, Read.HasBodies (Read.orbsOf d)) (hempty : use.name ≠ "")
    (honly : Reference.isOnly use.name = false) (hgiven : use.parameters = []) :
    Reports (jobExecutor s j use) ↔
      Reference.hasSubstitution use.name = false ∧ (Absent s use.name ∨ MissedFirst s use.name) := by
  rw [jobExecutor, if_neg (by simp [honly])]
  split
  · next hsubstitution => simp_all [not_reports_nil]
  next hliteral =>
  split
  · next found hown =>
    have hpresent : ¬Absent s use.name := by
      simp [Absent, Scope.hasExecutor, NameMap.contains_eq_isSome_get?, hown]
    have hnotMissed : ¬MissedFirst s use.name := by simp [MissedFirst, hown]
    simp [hgiven, not_reports_call, hpresent, hnotMissed]
  · next hown =>
    rw [reports_foreignExecutor_iff hbodies hown hgiven]
    simp_all

inductive Way where
  /-- A job names it. -/
  | direct
  /-- It is the value of an executor parameter. -/
  | value
  /-- It is the default of the executor parameter that a job refers to for its executor. -/
  | default
  deriving DecidableEq, Repr

/-- What the check of an executor that is named in some way has found. -/
inductive Names (s : Scope) (name : String) : Way → List Notice → Prop where
  | direct {j : Job} {use : ExecutorUse} (named : use.name = name) (literal : Reference.isOnly name = false)
      (given : use.parameters = []) : Names s name .direct (jobExecutor s j use)
  | value {usable : Parameters} {p : Parameter} {entity : String} {range : Range} {default : Option String}
      (typed : p.type = .executor default) : Names s name .value (value s usable p entity range (.text name))
  | default {j : Job} {use : ExecutorUse} {p : Parameter} (refers : Reference.isOnly use.name = true)
      (meant : s.referenced? j.parameters use.name = some p) (typed : p.type = .executor (some name))
      (optional : p.isOptional = true) : Names s name .default (jobExecutor s j use)

/-- What makes an executor that is named in some way be found missing. -/
def Misses (s : Scope) (name : String) : Way → Prop
  | .direct => Reference.hasSubstitution name = false ∧ (Absent s name ∨ MissedFirst s name)
  | .value => Reference.hasSubstitution name = false ∧ Absent s name
  | .default => Absent s name

theorem misses_agree_iff : (∀ way way', Misses s name way ↔ Misses s name way') ↔
    (Reference.hasSubstitution name = true → ¬Absent s name) ∧
      (Reference.hasSubstitution name = false → MissedFirst s name → Absent s name) := by
  constructor
  · intro h
    have hdefault := h .value .default
    have hdirect := h .direct .value
    simp only [Misses] at hdefault hdirect
    refine ⟨fun hsubstitution habsent => ?_, fun hliteral hmissed => ?_⟩
    · simp [hsubstitution, habsent] at hdefault
    · simpa [hliteral, hmissed] using hdirect
  · rintro ⟨hdefault, hdirect⟩ way way'
    cases hsubstitution : Reference.hasSubstitution name <;> cases way <;> cases way' <;>
      simp_all [Misses]

/-- Where each local orb that is declared has a body, as in all documents that are read from trees, a missing executor
is found in each way of naming it, and in each under a condition of its own. The ways agree just if a name with a
substitution in it is not absent, and no other one is missed in the first orb of its name and found in the second. A job
that names an executor by a reference goes by the default of the parameter. -/
theorem named_executors_found (hbodies : ∀ d ∈ s.documents, Read.HasBodies (Read.orbsOf d))
    (hhost : s.settings.usesDefaultHost = true)
    (hempty : name ≠ "") :
    (∀ way ns, Names s name way ns → (Reports ns ↔ Misses s name way)) ∧
    ((∀ way way', Misses s name way ↔ Misses s name way') ↔
      (Reference.hasSubstitution name = true → ¬Absent s name) ∧
        (Reference.hasSubstitution name = false → MissedFirst s name → Absent s name)) ∧
    ∀ j use, use.name = name → Reference.isOnly name = true → (Reports (jobExecutor s j use) ↔
      ∃ p meant, s.referenced? j.parameters name = some p ∧ p.type = .executor (some meant) ∧ p.isOptional = true ∧
        Misses s meant .default) := by
  refine ⟨?_, misses_agree_iff, ?_⟩
  · rintro way ns (⟨rfl, literal, given⟩ | ⟨typed⟩ | ⟨refers, meant, typed, optional⟩)
    · exact reports_direct_iff hbodies hempty literal given
    · exact reports_value_iff typed
    · rw [reports_reference_iff hhost refers]
      simp [meant, typed, optional, Misses]
  · rintro j use rfl honly
    exact reports_reference_iff hhost honly

def bareJob : Yaml.Tree := Yaml.Grammar.strict.tree "jobs: {build: {steps: [checkout]}}".toList

/-- An executor that is not there is found missing in all three ways. -/
theorem named_executors_found_of_ghost : ∃ s : Scope, (∀ d ∈ s.documents, Read.HasBodies (Read.orbsOf d)) ∧
    s.settings.usesDefaultHost = true ∧ "ghost" ≠ "" ∧ (∀ way, Misses s "ghost" way) ∧
    ∀ way ns, Names s "ghost" way ns → Reports ns := by
  have hread : ((Document.parseTree .strict .config bareJob).toOption.any fun d =>
      !({ settings := {}, caches := {}, failures := ∅, document := d } : Scope).hasExecutor "ghost" &&
        !({ settings := {}, caches := {}, failures := ∅, document := d } : Scope).isFromUnknownOrb "ghost") = true := by
    decide +kernel
  obtain ⟨d, hd, hghost⟩ := (Option.any_eq_true _ _).mp hread
  have hparse := eq_ok_of_toOption hd
  let s : Scope := { settings := {}, caches := {}, failures := ∅, document := d }
  have habsent : Absent s "ghost" := by simpa [Absent] using hghost
  have hmisses : ∀ way, Misses s "ghost" way := by
    have hliteral : Reference.hasSubstitution "ghost" = false := by decide +kernel
    intro way
    cases way
    · exact ⟨hliteral, .inl habsent⟩
    · exact ⟨hliteral, habsent⟩
    · exact habsent
  have hbodies : ∀ e ∈ s.documents, Read.HasBodies (Read.orbsOf e) := by
    intro e he
    obtain rfl : e = d := by simpa [Scope.documents] using he
    exact Read.hasBodies_of_ofTreeWith hparse
  have hhost : s.settings.usesDefaultHost = true := by
    change ({} : Settings).usesDefaultHost = true
    decide +kernel
  have hnamed : "ghost" ≠ "" := by decide
  have hfound := (named_executors_found hbodies hhost hnamed).1
  exact ⟨s, hbodies, hhost, hnamed, hmisses, fun way ns h => (hfound way ns h).mpr (hmisses way)⟩

/-- What an analysis of a configuration says about missing executors. -/
def judgedExecutors (source : String) : Option (List String) :=
  (Analyzer.standard.analyze {} source).1.toOption.map fun d => (d.diagnostics.filter saysMissing).map (·.message)

/-- A configuration with a name that has a substitution in it, once as the default of an executor parameter that a job
goes by, and once named by a job. -/
def substitutedName : String :=
  "jobs:\n  build:\n    parameters: {runner: {type: executor, default: linux-<< pipeline.id >>}}\n" ++
    "    executor: << parameters.runner >>\n  check:\n    executor: linux-<< pipeline.id >>\n"

/-- A configuration in which a local orb names an executor of an orb, in a job and as a value, and itself declares
another orb of the same name, without executors. -/
def nameOfTwoOrbs : String :=
  "orbs:\n  node:\n    executors: {default: {}}\n  tools:\n    orbs:\n      node:\n        jobs: {}\n" ++
    "    commands: {greet: {parameters: {to: {type: executor}}}}\n    jobs:\n      build:\n" ++
    "        executor: node/default\n        steps:\n          - greet:\n              to: node/default\n"

/-- A name with a substitution in it is found missing only where it is a default, and a name that leads into two orbs
only where a job names it. -/
theorem executor_ways_differ :
    judgedExecutors substitutedName =
      some ["Parameter is used as executor but executor `linux-<< pipeline.id >>` does not exist."] ∧
    judgedExecutors nameOfTwoOrbs = some ["Cannot find executor default in orb node"] := by
  decide +kernel

end Check

end PipelineLint
