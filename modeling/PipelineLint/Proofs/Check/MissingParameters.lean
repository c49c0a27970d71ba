import PipelineLint.Concrete.Host
import PipelineLint.Proofs.Check.Said
import PipelineLint.Proofs.Document.CallSites

/-! # Missing parameters

The check says that a parameter is missing only about a call that has no entry for it. Since each call was read where it
is written, and has an entry for each parameter that is assigned there, an assigned parameter is not said to be missing.
The exceptions are keys with a meaning of their own in a call, and unquoted integers that take more than 64 bits.
-/

namespace PipelineLint

namespace Check

open Step

/-- A call of a document: its kind, the name of what is called, the place of the call, and the values it gives. -/
inductive CallIn (d : Document) : Read.CallKind → String → Range → Assignments → Prop where
  | step {call : Invocation} (stands : StandsIn d (.named call) ∨ StandsInGiven d (.named call)) :
      CallIn d .step call.name call.range call.parameters
  | job {use : JobUse} (uses : use ∈ jobUses d) : CallIn d .job use.jobName use.jobNameRange use.parameters
  | executor {j : Job} {use : ExecutorUse} (names : (j, use) ∈ executorUses d) :
      CallIn d .executor use.name use.range use.parameters

/-- In a document that was read below a node, each call was. -/
theorem CallIn.readAt {v : Yaml.View} {top : Yaml.Node} {d : Document} {kind : Read.CallKind} {name : String}
    {range : Range} {given : Assignments} (h : CallIn d kind name range given) (hd : Read.EntitiesRead v top d) :
    Read.ReadAt v top kind range given := by
  have hsteps : ∀ sts ∈ ownSteps d, Read.StepsRead v top sts := by
    intro sts hsts
    simp only [ownSteps, jobSteps, commandSteps, aroundSteps, jobUses, List.mem_append, List.mem_map, List.mem_flatMap,
      List.mem_cons, List.not_mem_nil, or_false] at hsts
    obtain (⟨j, hj, rfl⟩ | ⟨c, hc, rfl⟩) | ⟨use, ⟨w, hw, huse⟩, rfl | rfl⟩ := hsts
    · exact (hd.jobs j hj).steps
    · exact hd.commands c hc
    · exact (hd.uses w hw use huse).preSteps
    · exact (hd.uses w hw use huse).postSteps
  have hgiven : ∀ a ∈ givenToJobs d ++ givenToExecutors d, Read.ValueRead v top a.value := by
    intro a ha
    simp only [givenToJobs, givenToExecutors, jobUses, List.mem_append, List.mem_flatMap, Prod.exists] at ha
    obtain ⟨use, ⟨w, hw, huse⟩, ha | ha⟩ | ⟨j, use, hnames, ha⟩ := ha
    · exact (hd.uses w hw use huse).parameters a ha
    · exact (hd.uses w hw use huse).matrix a ha
    · obtain ⟨hj, huse⟩ := mem_executorUses_iff.mp hnames
      exact ((hd.jobs j hj).executor use huse).2 a ha
  cases h with
  | step stands =>
    obtain ⟨sts, hsts, hamong⟩ | ⟨a, ha, hinside⟩ := stands
    · exact hsteps sts hsts _ hamong
    · exact hgiven a ha _ hinside
  | job uses =>
    obtain ⟨w, hw, huse⟩ := List.mem_flatMap.mp uses
    exact (hd.uses w hw _ huse).self
  | executor names =>
    obtain ⟨hj, huse⟩ := mem_executorUses_iff.mp names
    exact ((hd.jobs _ hj).executor _ huse).1

def missingParameter (parameter name : String) (range : Range) : Diagnostic :=
  .error .missingParameter range ("Parameter " ++ parameter ++ " is required for " ++ name)

def IsAboutCall (d : Document) (e : Diagnostic) : Prop :=
  ∃ kind name range given parameter, CallIn d kind name range given ∧ e = missingParameter parameter name range ∧
    Assignments.contains given parameter = false

/-- Those of some findings that say that a parameter is missing are about calls of a document. -/
def AboutCalls (d : Document) (ds : List Diagnostic) : Prop :=
  ∀ e ∈ ds, e.code = some .missingParameter → IsAboutCall d e

section AboutCalls

variable {d : Document} {ds es : List Diagnostic}

@[simp] theorem aboutCalls_nil : AboutCalls d [] := List.forall_mem_nil _

@[simp] theorem aboutCalls_append : AboutCalls d (ds ++ es) ↔ AboutCalls d ds ∧ AboutCalls d es :=
  List.forall_mem_append

@[simp] theorem aboutCalls_flatMap {α : Type} {f : α → List Diagnostic} {xs : List α} :
    AboutCalls d (xs.flatMap f) ↔ ∀ x ∈ xs, AboutCalls d (f x) := by
  simp only [AboutCalls, List.mem_flatMap, forall_exists_index, and_imp]
  exact ⟨fun h x hx e he => h e x hx he, fun h e x hx he => h x hx e he⟩

theorem aboutCalls_singleton {e : Diagnostic} (h : e.code ≠ some .missingParameter) : AboutCalls d [e] :=
  List.forall_mem_singleton.mpr fun hcode => absurd hcode h

/-- Findings of other kinds. -/
theorem Coded.aboutCalls {codes : List Code} (h : Coded codes ds)
    (hcodes : codes.any (· == .missingParameter) = false) :
    AboutCalls d ds := by
  intro e he hcode
  simpa [hcode] using h.any_eq_false hcodes e he

end AboutCalls

variable {s : Scope}

private theorem mem_missing {declared : Parameters} {entity : String} {range : Range} {isAssigned : String → Bool}
    {e : Diagnostic} (h : e ∈ missing declared entity range isAssigned) :
    ∃ parameter, e = missingParameter parameter entity range ∧ isAssigned parameter = false := by
  obtain ⟨⟨parameter, p⟩, hp, rfl⟩ := List.mem_map.mp h
  have hnot := (List.mem_filter.mp hp).2
  simp only [Bool.not_eq_true', Bool.or_eq_false_iff] at hnot
  exact ⟨parameter, rfl, hnot.2⟩

theorem aboutCalls_missing {d : Document} {kind : Read.CallKind} {entity : String} {range : Range} {given : Assignments}
    (hcall : CallIn d kind entity range given) (declared : Parameters) {isAssigned : String → Bool}
    (hassigned : ∀ name, isAssigned name = false → Assignments.contains given name = false) :
    AboutCalls d (missing declared entity range isAssigned) := by
  intro e he _
  obtain ⟨parameter, rfl, hnot⟩ := mem_missing he
  exact ⟨kind, entity, range, given, parameter, hcall, rfl, hassigned parameter hnot⟩

/-- What is said about a value does not say that a parameter is missing. -/
theorem SaidOfValue.code_ne {usable : Parameters} {e : Diagnostic} (h : SaidOfValue s usable (.finding e)) :
    e.code ≠ some .missingParameter := by
  have hcoded : Coded [.typeMismatch, .undefinedParameter, .undefinedExecutor, .missingValue, .invalidValue,
      .undefinedCommand] [e] := by
    refine coded_cons.mpr ⟨?_, coded_nil⟩
    cases h with
    | undeclared | mismatch => rfl
    | reference found => exact (coded_referenceValue _ _ _ _ _).mono (by simp) e found
    | plain found => exact (coded_plainValue _ _ _ _).mono (by simp) e found
    | item found => exact (coded_stepName _ _).mono (by simp) e found
  intro hcode
  simpa [hcode] using hcoded.any_eq_false (k := (· == .missingParameter)) rfl e (List.mem_singleton_self e)

/-- What is said about a step says that a parameter is missing only if the step lacks it. -/
theorem Said.missing_of_code {usable : Parameters} {st : Step} {e : Diagnostic} (h : Said s usable st (.finding e))
    (hcode : e.code = some .missingParameter) : ∃ (call : Invocation) (declared : Parameters), st = .named call ∧
      e ∈ Check.missing declared call.name call.range (Assignments.contains call.parameters) := by
  cases h with
  | run found =>
    have hcoded := (coded_run usable _).any_eq_false (k := (· == .missingParameter)) rfl e (mem_findings_iff.mpr found)
    simp [hcode] at hcoded
  | place found =>
    have hcoded := (coded_stepsPlace usable _ _).any_eq_false (k := (· == .missingParameter)) rfl e found
    simp [hcode] at hcoded
  | unknown | path => cases hcode
  | missing defined found => exact ⟨_, _, rfl, found⟩
  | value found => exact absurd hcode found.code_ne

theorem isAboutCall_of_said {d : Document} {usable : Parameters} {st : Step} {e : Diagnostic}
    (h : Said s usable st (.finding e)) (hst : StandsIn d st ∨ StandsInGiven d st)
    (hcode : e.code = some .missingParameter) : IsAboutCall d e := by
  obtain ⟨call, declared, rfl, hmissing⟩ := h.missing_of_code hcode
  exact aboutCalls_missing (.step hst) declared (fun _ => id) e hmissing hcode

theorem aboutCalls_steps {d : Document} {sts : List Step} (hsts : sts ∈ ownSteps d) (usable : Parameters) :
    AboutCalls d (findings (steps s usable sts)) := by
  intro e he hcode
  obtain ⟨inner, hamong, hsaid⟩ := said_of_mem_steps sts (mem_findings_iff.mp he)
  exact isAboutCall_of_said hsaid (.inl ⟨sts, hsts, hamong⟩) hcode

theorem aboutCalls_of_saidWithin {d : Document} {usable : Parameters} {inside : Step → Prop} {ns : List Notice}
    (h : ∀ n ∈ ns, SaidWithin s usable inside n) (hinside : ∀ st, inside st → StandsInGiven d st) :
    AboutCalls d (findings ns) := by
  intro e he hcode
  obtain hvalue | ⟨inner, hinner, hsaid⟩ := h _ (mem_findings_iff.mp he)
  · exact absurd hcode hvalue.code_ne
  · exact isAboutCall_of_said hsaid (.inr (hinside inner hinner)) hcode

theorem aboutCalls_values {d : Document} {as : Assignments} (has : as ⊆ givenToJobs d ++ givenToExecutors d)
    (usable : Parameters) (entity : String) (declared : Parameters) :
    AboutCalls d (findings (values s usable entity declared as)) :=
  aboutCalls_of_saidWithin (fun _ hn => saidWithin_of_mem_values entity declared as hn)
    fun _ ⟨a, ha, hinside⟩ => ⟨a, has ha, hinside⟩

private theorem aboutCalls_matrixValue {d : Document} {a : Assignment} (ha : a ∈ givenToJobs d ++ givenToExecutors d)
    (entity : String) (declared : Parameters) : AboutCalls d (findings (matrixValue s entity declared a)) := by
  unfold matrixValue
  split
  · exact aboutCalls_singleton nofun
  split
  · next items hitems =>
    rw [findings_flatMap, aboutCalls_flatMap]
    refine fun item hitem => aboutCalls_of_saidWithin (fun _ hn => saidWithin_of_mem_value _ _ _ _ hn) ?_
    exact fun st hinside => ⟨a, ha, hitems ▸ .list hitem hinside⟩
  · exact aboutCalls_nil
  · exact aboutCalls_singleton nofun

private theorem given_subset_of_mem_jobUses {d : Document} {use : JobUse} (huse : use ∈ jobUses d) :
    use.parameters ++ use.matrix ⊆ givenToJobs d ++ givenToExecutors d :=
  fun _ ha => List.mem_append_left _ (List.mem_flatMap.mpr ⟨use, huse, ha⟩)

private theorem aroundSteps_of_mem_jobUses {d : Document} {use : JobUse} (huse : use ∈ jobUses d) :
    use.preSteps ∈ ownSteps d ∧ use.postSteps ∈ ownSteps d :=
  ⟨List.mem_append_right _ (List.mem_flatMap.mpr ⟨use, huse, by simp⟩),
    List.mem_append_right _ (List.mem_flatMap.mpr ⟨use, huse, by simp⟩)⟩

private theorem aboutCalls_jobName {d : Document} {use : JobUse} (huse : use ∈ jobUses d) :
    AboutCalls d (findings (jobName s use)) := by
  have hsubset := List.append_subset.mp (given_subset_of_mem_jobUses huse)
  unfold jobName
  split
  · split
    · next declared _ =>
      simp only [jobUseParameters, findings_append, findings_map_finding, findings_flatMap, aboutCalls_append,
        aboutCalls_flatMap]
      refine ⟨⟨aboutCalls_missing (.job huse) declared fun name hnot => ?_, aboutCalls_values hsubset.1 _ _ _⟩,
        fun a ha => aboutCalls_matrixValue (hsubset.2 ha) _ _⟩
      exact (Bool.or_eq_false_iff.mp hnot).1
    · exact aboutCalls_nil
  · exact aboutCalls_singleton fun hcode => by cases hcode

private theorem aboutCalls_jobUse {d : Document} {w : Workflow} {use : JobUse} (huse : use ∈ jobUses d) :
    AboutCalls d (findings (jobUse s w use)) := by
  have hsteps := aroundSteps_of_mem_jobUses huse
  unfold jobUse
  split
  · exact aboutCalls_nil
  split
  · exact aboutCalls_nil
  · simp only [findings_append, findings_map_finding, aboutCalls_append, aboutCalls_flatMap]
    refine ⟨⟨⟨⟨⟨?_, aboutCalls_jobName huse⟩, fun r _ => (coded_requirement w r).aboutCalls rfl⟩,
      fun count _ => (coded_jobReruns count).aboutCalls rfl, fun c _ => (coded_context c).aboutCalls rfl⟩,
      aboutCalls_steps hsteps.1 ∅⟩, aboutCalls_steps hsteps.2 ∅⟩
    split
    · exact aboutCalls_singleton nofun
    · exact aboutCalls_nil

private theorem aboutCalls_workflows : AboutCalls s.document (findings (workflows s)) := by
  simp only [workflows, findings_append, findings_flatMap, aboutCalls_append, aboutCalls_flatMap]
  exact ⟨fun w hw use huse => aboutCalls_jobUse (List.mem_flatMap.mpr ⟨w, hw, huse⟩), coded_cycles.aboutCalls rfl⟩

private theorem aboutCalls_jobExecutor {d : Document} {j : Job} {use : ExecutorUse} (huse : (j, use) ∈ executorUses d) :
    AboutCalls d (findings (jobExecutor s j use)) := by
  have hcall : ∀ declared, AboutCalls d (findings (call s j.parameters use.name use.range declared use.parameters)) := by
    intro declared
    have hsubset : use.parameters ⊆ givenToJobs d ++ givenToExecutors d :=
      fun a ha => List.mem_append_right _ (List.mem_flatMap.mpr ⟨(j, use), huse, ha⟩)
    simp only [call, findings_append, findings_map_finding, aboutCalls_append]
    exact ⟨aboutCalls_missing (.executor huse) declared fun _ => id, aboutCalls_values hsubset _ _ _⟩
  unfold jobExecutor foreignExecutor
  split
  · rw [findings_map_finding]
    exact (coded_executorParameter j use).aboutCalls rfl
  split
  · exact aboutCalls_nil
  split
  · exact hcall _
  split
  · split
    · split
      · exact hcall _
      · exact aboutCalls_singleton fun hcode => by cases hcode
    · split
      · exact aboutCalls_singleton fun hcode => by cases hcode
      · exact aboutCalls_nil
  · exact aboutCalls_singleton fun hcode => by cases hcode
  · exact aboutCalls_singleton fun hcode => by cases hcode

private theorem aboutCalls_job {j : Job} (hj : j ∈ s.document.jobs.values) :
    AboutCalls s.document (findings (job s j)) := by
  have hsteps : j.steps ∈ ownSteps s.document :=
    List.mem_append_left _ (List.mem_append_left _ (List.mem_map_of_mem hj))
  unfold job
  simp only [findings_append, findings_map_finding, aboutCalls_append]
  refine ⟨⟨⟨⟨⟨(coded_jobType j).aboutCalls rfl, aboutCalls_steps hsteps _⟩, ⟨(coded_ignoredSteps j).aboutCalls rfl,
    (coded_unusedJob j).aboutCalls rfl⟩, (coded_untoldResults j).aboutCalls rfl⟩, ?_⟩,
    (coded_parallelism j).aboutCalls rfl, (coded_retention j).aboutCalls rfl⟩, ?_⟩
  · split
    · next use huse => exact aboutCalls_jobExecutor (mem_executorUses_iff.mpr ⟨hj, huse⟩)
    · exact aboutCalls_nil
  · split
    · next e _ => exact (coded_executor e).aboutCalls rfl
    · exact aboutCalls_nil

private theorem aboutCalls_jobs : AboutCalls s.document (findings (jobs s)) := by
  rw [jobs, findings_flatMap, aboutCalls_flatMap]
  exact fun j hj => aboutCalls_job hj

private theorem aboutCalls_commands : AboutCalls s.document (findings (commands s)) := by
  simp only [commands, findings_flatMap, findings_append, findings_map_finding, aboutCalls_flatMap, aboutCalls_append]
  refine fun c hc => ⟨aboutCalls_steps ?_ _, (coded_unusedCommand c).aboutCalls rfl⟩
  exact List.mem_append_left _ (List.mem_append_right _ (List.mem_map_of_mem hc))

/-- Where the check of a document says that a parameter is missing, it is about a call of the document, or of the body
of a local orb in it, that has no entry for it. -/
theorem isAboutCall_of_mem_document {loader : Load.Loader} {schema : Option Schema} {e : Diagnostic}
    (he : e ∈ findings (document loader schema s)) (hcode : e.code = some .missingParameter) :
    ∃ t ∈ scopes s, IsAboutCall t.document e := by
  simp only [document, findings_append, findings_flatMap, List.mem_append, List.mem_flatMap] at he
  have hself : ∀ {ds : List Diagnostic}, AboutCalls s.document ds → e ∈ ds → ∃ t ∈ scopes s, IsAboutCall t.document e :=
    fun hds he => ⟨s, List.mem_cons_self, hds e he hcode⟩
  obtain ((((((((he | he) | he) | he) | he) | he) | he) | he) | he) | ⟨o, ho, he⟩ := he
  · exact hself (coded_anchors.aboutCalls rfl) he
  · exact hself aboutCalls_workflows he
  · exact hself aboutCalls_jobs he
  · exact hself aboutCalls_commands he
  · exact hself (coded_orbs.aboutCalls rfl) he
  · exact hself (coded_executors.aboutCalls rfl) he
  · exact hself (coded_names.aboutCalls rfl) he
  · exact hself ((coded_shape loader schema).aboutCalls rfl) he
  · exact hself (coded_references.aboutCalls rfl) he
  · refine ⟨s.inOrb o, List.mem_cons_of_mem _ (List.mem_map_of_mem ho), ?_⟩
    simp only [orbBody, findings_append, List.mem_append] at he
    obtain (he | he) | he := he
    · exact aboutCalls_jobs e he hcode
    · exact aboutCalls_commands e he hcode
    · exact coded_executors.aboutCalls rfl e he hcode

end Check

namespace Analyzer

open Check Read

/-- Where an analysis says that a parameter is missing, it is about a call of the configuration, or of the body of a
local orb in it, that has no entry for it. -/
theorem isAboutCall_of_found (a : Analyzer) (session : Session) (d : Document) : ∃ found : List Diagnostic,
    (a.check session d).1 = d.addFindings found ∧ ∀ e ∈ found, e.code = some .missingParameter →
      ∃ t : Document, (t = d ∨ ∃ o ∈ d.localOrbs, t = o.document) ∧ IsAboutCall t e := by
  refine ⟨_, rfl, fun e he hcode => ?_⟩
  have hfilter := a.filter_answers (p := (·.code == some .missingParameter)) (a.fetchDeclared session d).2 ?_
    (document a.loader a.schema {
      settings := a.settings
      caches := (a.fetchDeclared session d).2.caches
      failures := (a.fetchDeclared session d).1
      document := d })
  · have hmem := hfilter ▸ List.mem_filter.mpr ⟨he, by simpa using hcode⟩
    obtain ⟨t, ht, habout⟩ := isAboutCall_of_mem_document (List.mem_filter.mp hmem).1 hcode
    refine ⟨t.document, ?_, habout⟩
    obtain rfl | ht := List.mem_cons.mp ht
    · exact .inl rfl
    · obtain ⟨o, ho, rfl⟩ := List.mem_map.mp ht
      exact .inr ⟨o, ho, rfl⟩
  · intro e he
    have hnone := (coded_cons.mpr ⟨he, coded_nil⟩ : Coded answerCodes [e]).any_eq_false
      (k := (· == .missingParameter)) rfl e (List.mem_singleton_self e)
    cases hcode : e.code with
    | none => rfl
    | some code => simpa [hcode] using hnone

/-- A document with the tree that it was read from: a configuration, or the body of a local orb in it. -/
inductive ReadFrom (g : Yaml.Grammar) (tree : Yaml.Tree) (d : Document) : Yaml.Tree → Document → Prop where
  | self : ReadFrom g tree d tree d
  | localOrb {o : LocalOrb} {body : Yaml.Node} {depth : Nat} (declared : o ∈ d.localOrbs)
      (body_mem : body ∈ tree.root.preorder) (range_eq : o.range = body.range)
      (read : ofTreeWith (Document.orbWithin g depth) .orb (g.tree (orbText tree.source body)) = .ok o.document) :
      ReadFrom g tree d (g.tree (orbText tree.source body)) o.document

/-- Each call of a document that is read from a tree, and of its local orbs, was read where it is written, and has an
entry for each parameter that is assigned there under a key without a meaning of its own. So an analysis says only of
parameters that are not assigned that they are missing. An unquoted integer that takes more than 64 bits assigns
nothing. -/
theorem assigned_parameters_given (a : Analyzer) (session : Session) {g : Yaml.Grammar} {depth : Nat}
    {documentKind : DocumentKind} {tree : Yaml.Tree} {d : Document}
    (hd : ofTreeWith (Document.orbWithin g depth) documentKind tree = .ok d) :
    (∀ t d', ReadFrom g tree d t d' → ∀ kind name range given, CallIn d' kind name range given →
      ReadAt (.ofTree t) t.top kind range given) ∧
    (∃ found, (a.check session d).1 = d.addFindings found ∧
      ∀ e ∈ found, e.code = some .missingParameter →
        ∃ t d' kind name range given parameter pairs, ReadFrom g tree d t d' ∧ CallIn d' kind name range given ∧
          WrittenAt (.ofTree t) t.top kind (range, pairs) ∧ e = missingParameter parameter name range ∧
          ∀ p ∈ pairs, (Yaml.View.ofTree t).keyText p = parameter → Assigns (.ofTree t) p → parameter ∈ kind.reserved) ∧
    ∀ (v : Yaml.View) (fuel : Nat) (p : Yaml.Pair), HasContent v (IsTooLarge v) p →
      Reads.Always (· = none) (assignment v fuel p) := by
  have hread : ∀ t d', ReadFrom g tree d t d' → EntitiesRead (.ofTree t) t.top d' := by
    rintro t d' (_ | ⟨_, _, _, hread⟩)
    · exact entitiesRead_of_ofTreeWith hd
    · exact entitiesRead_of_ofTreeWith hread
  refine ⟨fun t d' ht kind name range given hcall => hcall.readAt (hread t d' ht), ?_,
    fun v fuel p hp => always_none_of_isTooLarge hp⟩
  obtain ⟨found, hcheck, hfound⟩ := a.isAboutCall_of_found session d
  refine ⟨found, hcheck, fun e he hcode => ?_⟩
  obtain ⟨d', hd', kind, name, range, given, parameter, hcall, rfl, hnone⟩ := hfound e he hcode
  obtain ⟨t, ht⟩ : ∃ t, ReadFrom g tree d t d' := by
    obtain rfl | ⟨o, ho, rfl⟩ := hd'
    · exact ⟨tree, .self⟩
    · obtain ⟨body, hbody, hrange, deeper, hread⟩ := Document.exists_ofTreeWith_of_mem_localOrbs hd ho
      exact ⟨_, .localOrb ho hbody hrange hread⟩
  obtain ⟨pairs, hwritten, hentries⟩ := hcall.readAt (hread t d' ht)
  refine ⟨t, d', kind, name, range, given, parameter, pairs, ht, hcall, hwritten, rfl, ?_⟩
  rintro p hp rfl hassigns
  by_contra hreserved
  simp [hentries p hp hreserved hassigns] at hnone

theorem assigned_parameters_given_of_greeting :
    let tree := Yaml.Grammar.strict.tree "jobs: {build: {steps: [{greet: {to: you}}]}}".toList
    ∃ d, ofTreeWith (Document.orbWithin .strict 0) .config tree = .ok d ∧
      ∀ kind name range given, CallIn d kind name range given → ReadAt (.ofTree tree) tree.top kind range given := by
  intro tree
  have hread : (ofTreeWith (Document.orbWithin .strict 0) .config tree).toOption.isSome = true := by decide +kernel
  obtain ⟨d, hd⟩ := Option.isSome_iff_exists.mp hread
  have hd := eq_ok_of_toOption hd
  exact ⟨d, hd, (assigned_parameters_given .standard {} hd).1 tree d .self⟩

/-- The value under a key; in a sequence, under a key of its first item. -/
def below? (v : Yaml.View) (n : Yaml.Node) (key : String) : Option Yaml.Node :=
  v.field? (((v.items n).head?.bind (·.value)).getD n) key

/-- The keys of a mapping in a text under which scalars stand, and what an analysis says about missing parameters. -/
def judgedCall (source : String) (path : List String) : Option (List String × List Diagnostic) := do
  let v := Yaml.View.ofTree (Yaml.Grammar.strict.tree source.toList)
  let mapping ← path.foldlM (below? v) v.tree.top
  let d ← (Analyzer.standard.analyze {} source).1.toOption
  pure (((v.pairs mapping).filter fun p => (p.rawValue.bind v.scalar?).isSome).map v.keyText,
    d.diagnostics.filter (·.code == some .missingParameter))

/-- Three calls that give scalars to parameters which are said to be missing: a step that gives an integer of more than
64 bits, a job of a workflow that gives a name, and an executor with a parameter that is called like the key of its own
name. -/
theorem assigned_parameters_missing :
    judgedCall ("commands: {greet: {parameters: {to: {type: env_var_name}}}}\n" ++
        "jobs: {build: {steps: [{greet: {to: 99999999999999999999}}]}}\n") ["jobs", "build", "steps", "greet"] =
      some (["to"], [missingParameter "to" "greet" ⟨⟨1, 24⟩, ⟨1, 29⟩⟩]) ∧
    judgedCall ("jobs: {build: {parameters: {name: {type: string}}}}\n" ++
        "workflows: {main: {jobs: [{build: {name: x}}]}}\n") ["workflows", "main", "jobs", "build"] =
      some (["name"], [missingParameter "name" "build" ⟨⟨1, 27⟩, ⟨1, 32⟩⟩]) ∧
    judgedCall ("executors: {place: {parameters: {name: {type: string}}}}\n" ++
        "jobs: {build: {executor: {name: place}}}\n") ["jobs", "build", "executor"] =
      some (["name"], [missingParameter "name" "place" ⟨⟨1, 15⟩, ⟨1, 38⟩⟩]) := by
  decide +kernel

end Analyzer

end PipelineLint
