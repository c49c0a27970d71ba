import PipelineLint.Concrete.Host
import PipelineLint.Proofs.Check.Sight
import PipelineLint.Proofs.Session.Kept

/-! # Analyses after other calls

Calls that share a session share what they learn. Whatever an analysis asks for, it gets the same answer in every
honest session; but a check also looks at orbs that its analysis does not ask for: those that the body of a local
orb declares, and those whose version is known only when the pipeline runs. Such an orb is known just if an earlier
call has learnt of it. So a document is checked alike after all calls that have learnt of the same ones among these
orbs, whatever grammar it was read with (`check_eq_of_honest`, `analyze_after_calls`).
-/

namespace PipelineLint

namespace Document

/-- The orbs that an analysis of a document asks the registry for. -/
def fetchedOrbs (d : Document) : List OrbUse := d.orbs.values.filter Analyzer.isFetchable

/-- The orbs of registries that a check of a document looks at and that its analysis does not ask for. -/
def unfetchedOrbs (d : Document) : List OrbUse :=
  ((Check.visited d).flatMap registryOrbs).filter fun use => !d.fetchedOrbs.any (·.url.id == use.url.id)

theorem areRemote_fetchedOrbs (d : Document) : Analyzer.AreRemote d.fetchedOrbs := by
  intro use huse
  have hfetchable := (List.mem_filter.mp huse).2
  simp only [Analyzer.isFetchable, Bool.and_eq_true, Bool.not_eq_true'] at hfetchable
  exact hfetchable.1

private theorem areRemote_unfetchedOrbs (d : Document) : Analyzer.AreRemote d.unfetchedOrbs := by
  intro use huse
  obtain ⟨e, -, he⟩ := List.mem_flatMap.mp (List.mem_filter.mp huse).1
  simpa using (List.mem_filter.mp he).2

end Document

namespace Analyzer

variable {a : Analyzer} {s t : Session}

theorem fetchDeclared_eq (s : Session) (d : Document) : a.fetchDeclared s d = a.fetchOrbs s d.fetchedOrbs := rfl

/-- What an analysis asks for makes two honest sessions alike, as far as the check of its document looks. -/
theorem sameOrbs_fetchDeclared (hs : a.Honest s) (ht : a.Honest t) {d : Document}
    (h : ∀ use ∈ d.unfetchedOrbs, t.caches.orbs.get? use.url.id = s.caches.orbs.get? use.url.id) :
    ∀ e ∈ Check.visited d, e.SameOrbs (a.fetchDeclared s d).2.caches (a.fetchDeclared t d).2.caches := by
  intro e he use huse
  rw [fetchDeclared_eq, fetchDeclared_eq]
  by_cases hfetched : ∃ other ∈ d.fetchedOrbs, other.url.id = use.url.id
  · obtain ⟨other, hother, hid⟩ := hfetched
    rw [← hid, get?_fetchOrbs_of_mem hs d.areRemote_fetchedOrbs hother,
      get?_fetchOrbs_of_mem ht d.areRemote_fetchedOrbs hother]
  · have hunfetched : use ∈ d.unfetchedOrbs := by
      refine List.mem_filter.mpr ⟨List.mem_flatMap.mpr ⟨e, he, huse⟩, ?_⟩
      simpa using hfetched
    have hnone : ∀ other ∈ d.fetchedOrbs, other.url.id ≠ use.url.id := by simpa using hfetched
    rw [get?_fetchOrbs_of_notMem hs d.areRemote_fetchedOrbs hnone,
      get?_fetchOrbs_of_notMem ht d.areRemote_fetchedOrbs hnone]
    exact h use hunfetched

theorem check_eq (s : Session) (d : Document) :
    a.check s d =
      let fetched := a.fetchOrbs s d.fetchedOrbs
      let found := a.answers fetched.2 (Check.document a.loader a.schema
        { settings := a.settings, caches := fetched.2.caches, failures := fetched.1, document := d })
      (d.addFindings found.1, found.2) := rfl

/-- A document is checked alike in honest sessions that know alike the orbs it does not ask for. -/
theorem check_eq_of_honest (hs : a.Honest s) (ht : a.Honest t) (hfiles : s.files = t.files) {d : Document}
    (h : ∀ use ∈ d.unfetchedOrbs, t.caches.orbs.get? use.url.id = s.caches.orbs.get? use.url.id) :
    (a.check s d).1 = (a.check t d).1 := by
  have hremote := d.areRemote_fetchedOrbs
  have hfailures : (a.fetchOrbs t d.fetchedOrbs).1 = (a.fetchOrbs s d.fetchedOrbs).1 :=
    (fetchOrbs_fst ht hremote).trans (fetchOrbs_fst hs hremote).symm
  have hfiles' : (a.fetchOrbs s d.fetchedOrbs).2.files = (a.fetchOrbs t d.fetchedOrbs).2.files := by
    rw [files_fetchOrbs, files_fetchOrbs, hfiles]
  have hnotices := Check.document_eq_of_alike a.loader a.schema
    { settings := a.settings, caches := (a.fetchOrbs s d.fetchedOrbs).2.caches
      failures := (a.fetchOrbs s d.fetchedOrbs).1, document := d }
    (a.fetchOrbs t d.fetchedOrbs).2.caches rfl (sameOrbs_fetchDeclared hs ht h)
  simp only [check_eq, hfailures, hnotices]
  rw [answers_eq (hs.fetchOrbs hremote) (ht.fetchOrbs hremote) hfiles']

private theorem Honest.check (hs : a.Honest s) (d : Document) :
    a.Honest (a.check s d).2 ∧
      (a.check s d).2.caches.orbs = (a.fetchOrbs s d.fetchedOrbs).2.caches.orbs := by
  rw [check_eq]
  exact (hs.fetchOrbs d.areRemote_fetchedOrbs).answers _

theorem analyze_of_parse_eq_error {source : String} {e : Endless} (s : Session)
    (h : Document.parse a.grammar source.toList = .error e) : a.analyze s source = (.error (.broken [] source), s) := by
  unfold analyze
  rw [h]

theorem analyze_of_parse_eq_ok {source : String} {d : Document} (s : Session)
    (h : Document.parse a.grammar source.toList = .ok d) : a.analyze s source = (.ok (a.check s d).1, (a.check s d).2) := by
  unfold analyze
  rw [h]

inductive Call where
  | analyze (source : String)
  /-- Checks a document, however it was read. -/
  | check (d : Document)
  | resolveOrb (reference : String)

namespace Call

def orbs (a : Analyzer) : Call → List OrbUse
  | analyze source => (Document.parse a.grammar source.toList).toOption.elim [] Document.fetchedOrbs
  | check d => d.fetchedOrbs
  | resolveOrb reference => [{ (default : OrbUse) with url := .parse reference }]

theorem isLocal_parse (reference : String) : (OrbUrl.parse reference).isLocal = false := by
  unfold OrbUrl.parse
  split <;> rfl

private theorem areRemote_orbs (a : Analyzer) (call : Call) : AreRemote (call.orbs a) := by
  intro use huse
  cases call with
  | analyze source =>
    rw [orbs] at huse
    cases hparse : (Document.parse a.grammar source.toList).toOption with
    | none =>
      rw [hparse] at huse
      cases huse
    | some d =>
      rw [hparse] at huse
      exact d.areRemote_fetchedOrbs use huse
  | check d => exact d.areRemote_fetchedOrbs use huse
  | resolveOrb reference =>
    rw [List.mem_singleton.mp huse]
    exact isLocal_parse reference

end Call

def afterCall (a : Analyzer) (s : Session) : Call → Session
  | .analyze source => (a.analyze s source).2
  | .check d => (a.check s d).2
  | .resolveOrb reference => (a.resolveOrb s reference).2

def after (a : Analyzer) (s : Session) (calls : List Call) : Session := calls.foldl a.afterCall s

/-- Some call asks for an orb and gets its contents. -/
def learns (a : Analyzer) (calls : List Call) (url : OrbUrl) : Bool :=
  calls.any fun call => (call.orbs a).any fun use => use.url.id == url.id && (a.orbAnswer use.url).toOption.isSome

theorem Honest.afterCall (hs : a.Honest s) (call : Call) :
    a.Honest (a.afterCall s call) ∧
      (a.afterCall s call).caches.orbs = (a.fetchOrbs s (call.orbs a)).2.caches.orbs := by
  cases call with
  | analyze source =>
    rw [Analyzer.afterCall, Call.orbs]
    cases hparse : Document.parse a.grammar source.toList with
    | error e =>
      rw [analyze_of_parse_eq_error s hparse]
      exact ⟨hs, rfl⟩
    | ok d =>
      rw [analyze_of_parse_eq_ok s hparse]
      exact hs.check d
  | check d => exact hs.check d
  | resolveOrb reference =>
    refine ⟨hs.fetchOrb ⟨.parse reference, Call.isLocal_parse reference⟩, ?_⟩
    rw [Analyzer.afterCall, Call.orbs, fetchOrbs_cons]
    rfl

/-- The contents that an honest session keeps are those that the registry answers. -/
theorem Honest.get?_eq_toOption (hs : a.Honest s) (url : RegistryUrl)
    (h : (s.caches.orbs.get? url.1.id).isSome) :
    s.caches.orbs.get? url.1.id = (a.orbAnswer url.1).toOption := by
  obtain ⟨info, hinfo⟩ := Option.isSome_iff_exists.mp h
  rw [hinfo, hs.orbAnswer_of_get? hinfo]
  rfl

/-- A call keeps the orbs that were kept, and those whose contents it asks for and gets. -/
theorem isSome_get?_afterCall (hs : a.Honest s) (call : Call) (url : OrbUrl) :
    ((a.afterCall s call).caches.orbs.get? url.id).isSome =
      ((s.caches.orbs.get? url.id).isSome || a.learns [call] url) := by
  have hremote := call.areRemote_orbs a
  rw [(hs.afterCall call).2, learns, List.any_cons, List.any_nil, Bool.or_false]
  by_cases hasked : ∃ use ∈ call.orbs a, use.url.id = url.id
  · obtain ⟨use, huse, hid⟩ := hasked
    have hany : ((call.orbs a).any fun other => other.url.id == url.id && (a.orbAnswer other.url).toOption.isSome) =
        (a.orbAnswer use.url).toOption.isSome := by
      rw [Bool.eq_iff_iff, List.any_eq_true]
      constructor
      · rintro ⟨other, hother, hanswer⟩
        obtain ⟨hid', hsome⟩ := Bool.and_eq_true_iff.mp hanswer
        have hsame : other.url.id = use.url.id := (beq_iff_eq.mp hid').trans hid.symm
        rwa [a.orbAnswer_eq_of_id_eq ⟨other.url, hremote other hother⟩ ⟨use.url, hremote use huse⟩ hsame] at hsome
      · exact fun hsome => ⟨use, huse, Bool.and_eq_true_iff.mpr ⟨beq_iff_eq.mpr hid, hsome⟩⟩
    rw [hany, ← hid, get?_fetchOrbs_of_mem hs hremote huse]
    cases hbefore : (s.caches.orbs.get? use.url.id).isSome with
    | false => rfl
    | true => rw [← hs.get?_eq_toOption ⟨use.url, hremote use huse⟩ hbefore, hbefore, Bool.or_self]
  · have hnone : ∀ use ∈ call.orbs a, use.url.id ≠ url.id := by simpa using hasked
    have hany : ((call.orbs a).any fun use => use.url.id == url.id && (a.orbAnswer use.url).toOption.isSome) = false := by
      rw [List.any_eq_false]
      intro use huse
      simp [hnone use huse]
    rw [get?_fetchOrbs_of_notMem hs hremote hnone, hany, Bool.or_false]

theorem learns_cons (call : Call) (calls : List Call) (url : OrbUrl) :
    a.learns (call :: calls) url = (a.learns [call] url || a.learns calls url) := by
  simp [learns]

/-- Calls keep a session honest, and an orb is kept after them just if it was before or one of them learns of it. -/
theorem Honest.after (hs : a.Honest s) (calls : List Call) :
    a.Honest (a.after s calls) ∧ ∀ url : OrbUrl, ((a.after s calls).caches.orbs.get? url.id).isSome =
      ((s.caches.orbs.get? url.id).isSome || a.learns calls url) := by
  induction calls generalizing s with
  | nil => exact ⟨hs, fun url => (Bool.or_false _).symm⟩
  | cons call calls ih =>
    obtain ⟨hafter, hkept⟩ := ih (hs.afterCall call).1
    refine ⟨hafter, fun url => ?_⟩
    rw [learns_cons, ← Bool.or_assoc, ← isSome_get?_afterCall hs call url]
    exact hkept url

/-- Honest sessions that both keep contents of an orb, or both none, keep the same. -/
theorem Honest.get?_eq (hs : a.Honest s) (ht : a.Honest t) (url : RegistryUrl)
    (h : (t.caches.orbs.get? url.1.id).isSome = (s.caches.orbs.get? url.1.id).isSome) :
    t.caches.orbs.get? url.1.id = s.caches.orbs.get? url.1.id := by
  cases hkept : (s.caches.orbs.get? url.1.id).isSome with
  | true => rw [hs.get?_eq_toOption url hkept, ht.get?_eq_toOption url (h.trans hkept)]
  | false =>
    have hnone := Option.isSome_eq_false_iff.mp hkept
    have hnone' := Option.isSome_eq_false_iff.mp (h.trans hkept)
    rw [Option.isNone_iff_eq_none.mp hnone, Option.isNone_iff_eq_none.mp hnone']

/-- After calls that have learnt alike of the orbs that a document does not ask for, it is checked alike. -/
theorem check_eq_of_learns_eq {files files' : Files} {calls calls' : List Call}
    (hfiles : (a.after { files } calls).files = (a.after { files := files' } calls').files) {d : Document}
    (h : ∀ use ∈ d.unfetchedOrbs, a.learns calls' use.url = a.learns calls use.url) :
    (a.check (a.after { files } calls) d).1 = (a.check (a.after { files := files' } calls') d).1 := by
  obtain ⟨hs, hkept⟩ := (a.honest_of_caches_eq_empty (s := { files }) rfl).after calls
  obtain ⟨ht, hkept'⟩ := (a.honest_of_caches_eq_empty (s := { files := files' }) rfl).after calls'
  refine check_eq_of_honest hs ht hfiles fun use huse => ?_
  have hremote : use.url.isLocal = false := d.areRemote_unfetchedOrbs use huse
  refine hs.get?_eq ht ⟨use.url, hremote⟩ ?_
  rw [hkept, hkept', h use huse]

/-- Some call learns of an orb that a document declares and its check does not ask for. -/
def learnsUnfetched (a : Analyzer) (calls : List Call) (d : Document) : Bool :=
  d.unfetchedOrbs.any fun use => a.learns calls use.url

def ofOrb (name version source : String) : Analyzer :=
  { Analyzer.standard with registry := .ofOrbs [(name, version, source)] }

/-- What is said of a document after other calls is what is said of it in a session that starts with the files as they
are then, provided that no call has learnt of an orb that the document declares and its check does not ask for. So a
text is analyzed alike that is read as this document, or as none. -/
theorem analyze_after_calls (a : Analyzer) (files : Files) (calls : List Call) (d : Document)
    (h : a.learnsUnfetched calls d = false) :
    (a.check (a.after { files } calls) d).1 = (a.check { files := (a.after { files } calls).files } d).1 ∧
      ∀ source : String, (∀ read, Document.parse a.grammar source.toList = .ok read → read = d) →
        (a.analyze (a.after { files } calls) source).1 =
          (a.analyze { files := (a.after { files } calls).files } source).1 := by
  have hfiles : (a.after { files } calls).files =
      (a.after { files := (a.after { files } calls).files } []).files := rfl
  have hlearns : ∀ use ∈ d.unfetchedOrbs, a.learns [] use.url = a.learns calls use.url := by
    intro use huse
    have hnone : a.learns calls use.url = false := by simpa using List.any_eq_false.mp h use huse
    exact hnone.symm
  have hcheck : (a.check (a.after { files } calls) d).1 =
      (a.check { files := (a.after { files } calls).files } d).1 := check_eq_of_learns_eq hfiles hlearns
  refine ⟨hcheck, fun source hread => ?_⟩
  cases hparse : Document.parse a.grammar source.toList with
  | error e => rw [analyze_of_parse_eq_error _ hparse, analyze_of_parse_eq_error _ hparse]
  | ok read =>
    obtain rfl := hread read hparse
    rw [analyze_of_parse_eq_ok _ hparse, analyze_of_parse_eq_ok _ hparse, hcheck]

/-- A configuration that declares an orb, and in the body of a local orb the same orb at another version. -/
def otherVersion : String :=
  "orbs:\n  node: acme/node@1.0.0\n  tools:\n    orbs:\n      node: acme/node@2.0.0\n"

/-- What another call learns is the version that the configuration asks for itself. -/
theorem analyze_after_call_of_other_version : ∃ d, Document.parse .strict otherVersion.toList = .ok d ∧
    (ofOrb "acme/node" "1.0.0" "").learnsUnfetched [.resolveOrb "acme/node@1.0.0"] d = false ∧
    d.unfetchedOrbs.map (·.url.version) = ["2.0.0"] ∧
    ((ofOrb "acme/node" "1.0.0" "").analyze
      ((ofOrb "acme/node" "1.0.0" "").after {} [.resolveOrb "acme/node@1.0.0"]) otherVersion).1 =
    ((ofOrb "acme/node" "1.0.0" "").analyze
      { files := ((ofOrb "acme/node" "1.0.0" "").after {} [.resolveOrb "acme/node@1.0.0"]).files } otherVersion).1 := by
  have hread : (Document.parse .strict otherVersion.toList).toOption.map (fun d =>
      ((ofOrb "acme/node" "1.0.0" "").learnsUnfetched [.resolveOrb "acme/node@1.0.0"] d,
        d.unfetchedOrbs.map (·.url.version))) = some (false, ["2.0.0"]) := by
    decide +kernel
  obtain ⟨d, hd, hfacts⟩ := Option.map_eq_some_iff.mp hread
  obtain ⟨hlearns, hversions⟩ := Prod.mk.inj hfacts
  have hparse := eq_ok_of_toOption hd
  refine ⟨d, hparse, hlearns, hversions, (analyze_after_calls _ {} _ d hlearns).2 _ fun read hread => ?_⟩
  exact Except.ok.inj (hread.symm.trans hparse)

def messages (said : Except AnalysisError Document × Session) : Option (List String) :=
  said.1.toOption.map fun d => d.diagnostics.map (·.message)

/-- An orb that the body of a local orb declares is known just if an earlier call has learnt of it. -/
theorem analyze_tells_earlier_call :
    messages ((ofOrb "acme/node" "1.0.0" "").analyze
        ((ofOrb "acme/node" "1.0.0" "").after {} [.analyze "orbs:\n  node: acme/node@1.0.0\n"])
        ("orbs:\n  tools:\n    orbs:\n      node: acme/node@1.0.0\n    commands:\n      build:\n" ++
          "        steps:\n          - node/missing\n")) =
      some ["Orb is unused", "Cannot find declaration for step node/missing", "Command is unused"] ∧
    messages ((ofOrb "acme/node" "1.0.0" "").analyze {}
        ("orbs:\n  tools:\n    orbs:\n      node: acme/node@1.0.0\n    commands:\n      build:\n" ++
          "        steps:\n          - node/missing\n")) =
      some ["Orb is unused", "Command is unused"] := by
  decide +kernel

end Analyzer

end PipelineLint
