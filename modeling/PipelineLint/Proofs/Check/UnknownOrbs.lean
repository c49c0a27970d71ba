import PipelineLint.Concrete.Grammar.Stream
import PipelineLint.Concrete.Host
import PipelineLint.Proofs.Check.Strays
import PipelineLint.Proofs.Text.Split

/-! # Names that lead into unknown orbs

Nothing can be said about a name that leads into an orb of a registry whose contents are not known. The checks spare
such names, with one exception: the executor that a job names is sought in whatever orb of that name is known, which
can be another one.
-/

namespace PipelineLint

namespace Check

open Text

variable {s : Scope}

/-- A name is that of an entity of a registry orb of which nothing can be known: one of the documents in sight
declares the orb, and its contents are not kept or its version has a substitution in it. -/
structure LeadsIntoUnknown (t : Scope) (name orb entity : String) (use : OrbUse) : Prop where
  parts : name = orb ++ "/" ++ entity ∧ '/' ∉ orb.toList ∧ '/' ∉ entity.toList
  declared : ∃ d ∈ t.documents, d.orbs.get? orb = some use
  remote : use.url.isLocal = false
  unknown : Reference.hasSubstitution use.url.version = true ∨ t.caches.orbs.get? use.url.id = none

theorem splitOrbName_eq_some_iff {name orb entity : String} :
    splitOrbName name = some (orb, entity) ↔
      name = orb ++ "/" ++ entity ∧ '/' ∉ orb.toList ∧ '/' ∉ entity.toList := by
  have hsplit : splitAtChar '/' name.toList = [orb.toList, entity.toList] ↔
      name.toList = orb.toList ++ '/' :: entity.toList ∧ '/' ∉ orb.toList ∧ '/' ∉ entity.toList :=
    splitAtChar_eq_pair_iff
  have hname : name = orb ++ "/" ++ entity ↔ name.toList = orb.toList ++ '/' :: entity.toList := by
    rw [← String.toList_inj]
    simp
  rw [hname, ← hsplit, splitOrbName]
  constructor
  · intro h
    split at h
    · next heq =>
      obtain ⟨rfl, rfl⟩ : String.ofList _ = orb ∧ String.ofList _ = entity := by simpa using h
      simpa using heq
    · cases h
  · intro h
    simp [h]

/-- The checks know such a name by its form. -/
theorem isFromUnknownOrb_iff {t : Scope} {name : String} :
    t.isFromUnknownOrb name = true ↔ ∃ orb entity use, LeadsIntoUnknown t name orb entity use := by
  constructor
  · intro h
    obtain ⟨d, hd, hname⟩ := List.any_eq_true.mp h
    rw [Document.isFromUnknownOrb] at hname
    cases hsplit : splitOrbName name with
    | none => simp [hsplit] at hname
    | some parts =>
      obtain ⟨use, hget, hunknown⟩ := by simpa [hsplit, Option.any_eq_true] using hname
      exact ⟨parts.1, parts.2, use, splitOrbName_eq_some_iff.mp hsplit, ⟨d, hd, hget⟩, hunknown.1,
        by simpa [NameMap.contains_eq_isSome_get?] using hunknown.2⟩
  · rintro ⟨orb, entity, use, h⟩
    obtain ⟨d, hd, hget⟩ := h.declared
    refine List.any_eq_true.mpr ⟨d, hd, ?_⟩
    simpa [Document.isFromUnknownOrb, splitOrbName_eq_some_iff.mpr h.parts, hget, h.remote,
      NameMap.contains_eq_isSome_get?] using h.unknown

/-- The checks of one document, with what they find and want to know. -/
structure Pass where
  scope : Scope
  notices : List Notice

/-- The passes of a check: one over the document, and one over the body of each of its local orbs. -/
def passes (loader : Load.Loader) (schema : Option Schema) (s : Scope) : List Pass :=
  ⟨s, anchors s ++ workflows s ++ jobs s ++ commands s ++ orbs s ++ executors s ++ names s ++ shape loader schema s ++
    references s⟩ :: s.document.localOrbs.map fun o => ⟨s.inOrb o, orbBody (s.inOrb o)⟩

private theorem document_eq_flatMap_passes (loader : Load.Loader) (schema : Option Schema) (s : Scope) :
    document loader schema s = (passes loader schema s).flatMap Pass.notices := by
  simp [document, passes, List.flatMap_map]

/-- Some analyzer, whatever its session, answers a notice of the pass with the finding. -/
def Pass.Finds (p : Pass) (d : Diagnostic) : Prop :=
  ∃ (a : Analyzer) (session : Session), ∃ notice ∈ p.notices, d ∈ (a.answer session notice).1

variable {loader : Load.Loader} {schema : Option Schema} {p : Pass}

private theorem truthful_of_mem_passes (h : p ∈ passes loader schema s) : Truthful p.scope p.notices := by
  obtain rfl | h := List.mem_cons.mp h
  · simp only [truthful_append]
    exact ⟨⟨⟨⟨⟨⟨⟨⟨truthful_anchors, truthful_workflows⟩, truthful_jobs⟩, truthful_commands⟩, truthful_orbs⟩,
      truthful_executors⟩, truthful_names⟩, truthful_shape loader schema⟩, truthful_references⟩
  · obtain ⟨o, -, rfl⟩ := List.mem_map.mp h
    simp only [orbBody, truthful_append]
    exact ⟨⟨truthful_jobs, truthful_commands⟩, truthful_executors⟩

private theorem jobs_subset_of_mem_passes (h : p ∈ passes loader schema s) : jobs p.scope ⊆ p.notices := by
  intro notice hnotice
  obtain rfl | h := List.mem_cons.mp h
  · simp [hnotice]
  · obtain ⟨o, -, rfl⟩ := List.mem_map.mp h
    simp [orbBody, hnotice]

/-- Findings about names that lead nowhere are the checks' own, not answers of collaborators. -/
theorem mem_answer_iff {a : Analyzer} {session : Session} {notice : Notice} {d : Diagnostic}
    (h : isStray d = true) : d ∈ (a.answer session notice).1 ↔ notice = .finding d := by
  have hquiet : ∀ ds, Coded Analyzer.answerCodes ds → d ∉ ds := fun ds hds hd => by simp [hds.quiet rfl d hd] at h
  cases notice with
  | finding e => simp [Analyzer.answer, eq_comm]
  | image spec => simpa [Analyzer.answer] using hquiet _ (a.coded_checkImage session spec)
  | script run => simpa [Analyzer.answer] using hquiet _ (a.coded_lintScript session run)

theorem finds_iff {d : Diagnostic} (h : isStray d = true) : p.Finds d ↔ .finding d ∈ p.notices := by
  constructor
  · rintro ⟨a, session, notice, hnotice, hd⟩
    exact (mem_answer_iff h).mp hd ▸ hnotice
  · intro hd
    exact ⟨.standard, {}, _, hd, (mem_answer_iff h).mpr rfl⟩

@[simp]
theorem isStray_report (u : Stray) (range : Range) : isStray (u.report range) = true := by
  cases u <;> rfl

@[simp]
theorem isStray_notInOrb (orb entity : String) (range : Range) : isStray (notInOrb orb entity range) = true := rfl

private theorem isOrbName_of_orbInfo?_eq_some {t : Scope} {name orb entity : String} {info : OrbInfo}
    (hsplit : splitOrbName name = some (orb, entity)) (h : t.orbInfo? orb = some info) : t.isOrbName name = true := by
  obtain ⟨d, hd, hinfo⟩ := List.exists_of_findSome?_eq_some h
  refine List.any_eq_true.mpr ⟨d, hd, ?_⟩
  rw [Document.orbInfo?] at hinfo
  cases hget : d.orbs.get? orb with
  | none => simp [hget] at hinfo
  | some use => simp [Document.isOrbName, hsplit, NameMap.contains_eq_isSome_get?, hget]

private theorem SoughtInVain.jobExecutor {t : Scope} {use : ExecutorUse} {orb entity : String}
    (h : SoughtInVain t use orb entity) (j : Job) :
    .finding (notInOrb orb entity use.nameRange) ∈ jobExecutor t j use := by
  obtain ⟨info, hinfo, hnone⟩ := h.sought
  have hne : use.name.isEmpty = false := by
    cases hempty : use.name.isEmpty with
    | false => rfl
    | true =>
      have hsplit := h.split
      simp [String.isEmpty_iff.mp hempty, splitOrbName, splitAtChar, splitOn] at hsplit
  have horb : t.isOrbName use.name = true := isOrbName_of_orbInfo?_eq_some h.split hinfo
  simp [Check.jobExecutor, h.literal, hne, h.foreign, foreignExecutor, horb, h.split, hinfo, hnone, notInOrb]

private theorem SoughtInVain.jobs {t : Scope} {j : Job} {use : ExecutorUse} {orb entity : String}
    (h : SoughtInVain t use orb entity) (hj : j ∈ t.document.jobs.values) (huse : j.executor = some use) :
    .finding (notInOrb orb entity use.nameRange) ∈ Check.jobs t := by
  refine List.mem_flatMap.mpr ⟨j, hj, ?_⟩
  simp [job, huse, h.jobExecutor j]

/-- Where an executor is sought in vain although its name leads into an unknown orb, another orb is meant: that of
the document around a local orb, or one that is kept under a version with a substitution in it. -/
theorem SoughtInVain.isSome_enclosing_or_hasSubstitution {t : Scope} {use : ExecutorUse}
    {orb entity orb' entity' : String} {declared : OrbUse} (h : SoughtInVain t use orb entity)
    (hunknown : LeadsIntoUnknown t use.name orb' entity' declared) :
    t.enclosing.isSome = true ∨ Reference.hasSubstitution declared.url.version = true := by
  cases henclosing : t.enclosing with
  | some enclosing => exact .inl rfl
  | none =>
    obtain ⟨info, hinfo, -⟩ := h.sought
    obtain ⟨d, hd, hget⟩ := hunknown.declared
    have hdocuments : t.documents = [t.document] := by simp [Scope.documents, henclosing]
    obtain rfl : d = t.document := by simpa [hdocuments] using hd
    obtain ⟨rfl, rfl⟩ : orb = orb' ∧ entity = entity' := by
      simpa [h.split] using splitOrbName_eq_some_iff.mpr hunknown.parts
    refine .inr (hunknown.unknown.resolve_right fun hnone => ?_)
    simp [Scope.orbInfo?, hdocuments, Document.orbInfo?, hget, hunknown.remote, hnone] at hinfo

/-- What a pass says about names that lead nowhere: nothing about one that leads into an unknown orb, but that an
executor that a job names is not in the orb in which it is sought. -/
structure Pass.Spares (p : Pass) : Prop where
  /-- No finding is about a name that leads into an unknown orb. -/
  unknown : ∀ (u : Stray) range orb entity use,
    LeadsIntoUnknown p.scope u.name orb entity use → ¬p.Finds (u.report range)
  /-- A finding is about a name that does not, or about an executor that is sought in vain. -/
  rest : ∀ d, isStray d = true → p.Finds d →
    (∃ (u : Stray) (range : Range), d = u.report range) ∨ ∃ j ∈ p.scope.document.jobs.values, ∃ use orb entity,
      j.executor = some use ∧ SoughtInVain p.scope use orb entity ∧ d = notInOrb orb entity use.nameRange
  /-- Every executor that a job names and that is sought in vain is found. -/
  vain : ∀ j ∈ p.scope.document.jobs.values, ∀ use orb entity, j.executor = some use →
    SoughtInVain p.scope use orb entity → p.Finds (notInOrb orb entity use.nameRange)
  /-- It can lead into an unknown orb only if another orb is meant, or the version of a known one is not. -/
  other : ∀ use orb entity orb' entity' declared, SoughtInVain p.scope use orb entity →
    LeadsIntoUnknown p.scope use.name orb' entity' declared →
    p.scope.enclosing.isSome = true ∨ Reference.hasSubstitution declared.url.version = true

private theorem spares_of_mem_passes (h : p ∈ passes loader schema s) : p.Spares where
  unknown u range orb entity use hunknown hfinds := by
    have htold := truthful_of_mem_passes h _ ((finds_iff (isStray_report u range)).mp hfinds) (isStray_report u range)
    -- A told finding is about one name, so that of a name into an unknown orb would be about a known one.
    generalize hd : u.report range = d at htold
    cases htold with
    | stray v range' known =>
      rw [← Stray.eq_of_report_eq hd, isFromUnknownOrb_iff.mpr ⟨_, _, _, hunknown⟩] at known
      cases known
    | sought => exact Stray.report_ne_notInOrb hd
  rest d hstray hfinds := by
    cases truthful_of_mem_passes h d ((finds_iff hstray).mp hfinds) hstray with
    | stray u range known => exact .inl ⟨u, range, rfl⟩
    | sought job names vain => exact .inr ⟨_, job, _, _, _, names, vain, rfl⟩
  vain j hj use orb entity huse hvain :=
    (finds_iff (isStray_notInOrb _ _ _)).mpr (jobs_subset_of_mem_passes h (hvain.jobs hj huse))
  other _ _ _ _ _ _ hvain hunknown := hvain.isSome_enclosing_or_hasSubstitution hunknown

/-- No pass says of a name that leads into an unknown orb that it leads nowhere. The one check that names an orb
instead is that of the executor of a job, which is said to be missing whenever it is sought in vain. -/
theorem unknownOrbs_spared (loader : Load.Loader) (schema : Option Schema) (s : Scope) :
    document loader schema s = (passes loader schema s).flatMap Pass.notices ∧ ∀ p ∈ passes loader schema s, p.Spares :=
  ⟨document_eq_flatMap_passes loader schema s, fun _ h => spares_of_mem_passes h⟩

/-- The scope of the body of the first local orb in a text, where contents of orbs are kept. -/
def bodyScope? (source : String) (kept : List OrbInfo) : Option Scope := do
  let d ← (Document.parse .strict source.toList).toOption
  let o ← d.localOrbs.head?
  let caches := kept.foldl Caches.insertOrb {}
  some (Scope.inOrb { settings := {}, caches, failures := ∅, document := d } o)

/-- The body of a local orb declares an orb that is not known, under the name of a known orb of the document around
it. The executor of the one is said to be missing in the other. -/
theorem executor_sought_in_other_orb :
    (bodyScope? ("orbs:\n  node: acme/other@1.0.0\n  tools:\n    orbs:\n      node: acme/node@9.9.9\n    jobs:\n" ++
        "      build:\n        executor: node/default\n") [{ id := "acme/other@1.0.0", version := "1.0.0" }]).map
      (fun t => (t.isFromUnknownOrb "node/default", findings (orbBody t))) =
    some (true, [notInOrb "node" "default" ⟨⟨7, 18⟩, ⟨7, 30⟩⟩]) := by
  decide +kernel

end Check

end PipelineLint
