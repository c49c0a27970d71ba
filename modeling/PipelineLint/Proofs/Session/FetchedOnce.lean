import PipelineLint.Proofs.Session.History
import Mathlib.Logic.Relation

/-! # What is kept was fetched once

A session remembers which questions it asked. Orbs, repositories and their tags are asked about in one way: a question
has a key; what is kept under the key is taken, and else the question is asked and an answer is kept. So everything that
is kept is the answer to the one question with that key, a question that has an answer was asked once if its key is kept
and never if it is not, and a question without an answer leaves nothing behind. Each turn of an analysis, which asks at
most one question, keeps this balance (`Coherent.turn`), and every call is a row of turns (`turns_afterCall`).
-/

namespace PipelineLint

open Relation

/-- Questions of one kind, each with the key that its answer is kept under. -/
structure Inquiry (α β ε : Type) where
  question : α → Question
  key : α → String
  answer : α → Except ε β
  key_eq_iff : ∀ q q', key q = key q' ↔ question q = question q'
  answer_eq : ∀ q q', question q = question q' → answer q = answer q'

namespace Inquiry

variable {α β ε : Type} {i : Inquiry α β ε} {c : Cache β} {asked : List Question} {q : α} {b : β}

structure Balanced (i : Inquiry α β ε) (c : Cache β) (asked : List Question) : Prop where
  honest : c.Honest i.key i.answer
  keyed : ∀ k b, c.get? k = some b → ∃ q, i.key q = k
  once : ∀ q b, i.answer q = .ok b → asked.count (i.question q) = if (c.get? (i.key q)).isSome then 1 else 0

theorem balanced_empty (i : Inquiry α β ε) : i.Balanced ∅ [] where
  honest := Cache.honest_empty _ _
  keyed := nofun
  once := fun _ _ _ => rfl

/-- A question of another kind changes nothing. -/
theorem Balanced.ask_other (h : i.Balanced c asked) (other : Question) (hother : ∀ q, i.question q ≠ other) :
    i.Balanced c (asked ++ [other]) where
  honest := h.honest
  keyed := h.keyed
  once q b hq := by
    have hcount : [other].count (i.question q) = 0 :=
      List.count_eq_zero.mpr fun hmem => hother q (List.mem_singleton.mp hmem)
    rw [List.count_append, hcount, Nat.add_zero, h.once q b hq]

/-- A question without an answer is only noted. -/
theorem Balanced.ask_failed (h : i.Balanced c asked) {e : ε} (hq : i.answer q = .error e) :
    i.Balanced c (asked ++ [i.question q]) where
  honest := h.honest
  keyed := h.keyed
  once q' b hq' := by
    have hne : i.question q' ≠ i.question q := by
      intro hsame
      rw [i.answer_eq q' q hsame, hq] at hq'
      cases hq'
    have hcount : [i.question q].count (i.question q') = 0 :=
      List.count_eq_zero.mpr fun hmem => hne (List.mem_singleton.mp hmem)
    rw [List.count_append, hcount, Nat.add_zero, h.once q' b hq']

/-- A question whose key is not kept is noted and its answer kept. -/
theorem Balanced.ask_answered (h : i.Balanced c asked) (hnew : c.get? (i.key q) = none) (hq : i.answer q = .ok b) :
    i.Balanced (NameMap.insert c (i.key q) b) (asked ++ [i.question q]) where
  honest := h.honest.insert (fun q q' hkey => i.answer_eq q q' ((i.key_eq_iff q q').mp hkey)) hq
  keyed k b' hk := by
    by_cases hsame : k = i.key q
    · exact ⟨q, hsame.symm⟩
    · rw [NameMap.get?_insert_of_ne _ _ hsame] at hk
      exact h.keyed k b' hk
  once q' b' hq' := by
    rw [List.count_append]
    by_cases hsame : i.question q' = i.question q
    · have hkey : i.key q' = i.key q := (i.key_eq_iff q' q).mpr hsame
      have hbefore : asked.count (i.question q) = 0 := by
        rw [h.once q b hq, hnew]
        rfl
      rw [hsame, hbefore, hkey, NameMap.get?_insert_self, List.count_singleton_self]
      rfl
    · have hkey : i.key q' ≠ i.key q := fun hkey => hsame ((i.key_eq_iff q' q).mp hkey)
      have hcount : [i.question q].count (i.question q') = 0 :=
        List.count_eq_zero.mpr fun hmem => hsame (List.mem_singleton.mp hmem)
      rw [hcount, Nat.add_zero, h.once q' b' hq', NameMap.get?_insert_of_ne _ _ hkey]

/-- A question without an answer leaves nothing behind. -/
theorem Balanced.get?_eq_none (h : i.Balanced c asked) {e : ε} (hq : i.answer q = .error e) :
    c.get? (i.key q) = none := by
  cases hkept : c.get? (i.key q) with
  | none => rfl
  | some b =>
    rw [h.honest q b hkept] at hq
    cases hq

/-- What is kept is the answer to the one question with the key. -/
theorem Balanced.exists_question (h : i.Balanced c asked) {k : String} (hk : c.get? k = some b) :
    ∃ q, i.key q = k ∧ i.answer q = .ok b ∧ asked.count (i.question q) = 1 ∧
      ∀ q', i.key q' = k → i.question q' = i.question q := by
  obtain ⟨q, rfl⟩ := h.keyed k b hk
  have hanswer := h.honest q b hk
  refine ⟨q, rfl, hanswer, ?_, fun q' hkey => (i.key_eq_iff q' q).mp hkey⟩
  rw [h.once q b hanswer, hk]
  rfl

end Inquiry

namespace Analyzer

variable {a : Analyzer} {s t : Session}

def orbInquiry (a : Analyzer) : Inquiry RegistryUrl OrbInfo RegistryError where
  question url := .orb url.1.name url.1.version
  key url := url.1.id
  answer url := a.orbAnswer url.1
  key_eq_iff u v := by
    constructor
    · intro hid
      obtain ⟨hname, hversion⟩ := OrbUrl.eq_of_id_eq u.2 v.2 hid
      rw [hname, hversion]
    · intro hquestion
      obtain ⟨hname, hversion⟩ := Question.orb.inj hquestion
      rw [OrbUrl.id, OrbUrl.id, hname, hversion]
  answer_eq u v hquestion := by
    obtain ⟨hname, hversion⟩ := Question.orb.inj hquestion
    exact a.orbAnswer_eq_of_id_eq u v (by rw [OrbUrl.id, OrbUrl.id, hname, hversion])

def hubInquiry {β : Type} (question : String → String → Question)
    (answer : String → String → Except Docker.HubUnavailable β)
    (question_inj : ∀ owner name owner' name',
      question owner name = question owner' name' → owner = owner' ∧ name = name') :
    Inquiry Docker.Image β Docker.HubUnavailable where
  question i := question i.owner i.name
  key i := Docker.repository i.owner i.name
  answer i := answer i.owner i.name
  key_eq_iff i j := by
    constructor
    · intro hkey
      obtain ⟨howner, hname⟩ := Docker.Image.eq_of_repository_eq hkey
      rw [howner, hname]
    · intro hquestion
      obtain ⟨howner, hname⟩ := question_inj _ _ _ _ hquestion
      rw [howner, hname]
  answer_eq i j hquestion := by
    obtain ⟨howner, hname⟩ := question_inj _ _ _ _ hquestion
    rw [howner, hname]

/-- The question whether a repository exists. -/
def imageInquiry (a : Analyzer) : Inquiry Docker.Image Bool Docker.HubUnavailable :=
  hubInquiry .repository a.hub.hasImage fun _ _ _ _ => Question.repository.inj

def tagsInquiry (a : Analyzer) : Inquiry Docker.Image (List String) Docker.HubUnavailable :=
  hubInquiry .tags a.hub.tags fun _ _ _ _ => Question.tags.inj

/-- All that a session keeps is in balance with the questions that it asked. -/
structure Coherent (a : Analyzer) (s : Session) : Prop where
  orbs : a.orbInquiry.Balanced s.caches.orbs s.asked
  images : a.imageInquiry.Balanced s.caches.images s.asked
  tags : a.tagsInquiry.Balanced s.caches.tags s.asked

private theorem coherent_start (a : Analyzer) (files : Files) : a.Coherent { files } :=
  ⟨a.orbInquiry.balanced_empty, a.imageInquiry.balanced_empty, a.tagsInquiry.balanced_empty⟩

/-- A turn of an analysis: something is looked up, and asked for if it is not kept. -/
inductive Turn (a : Analyzer) (s : Session) : Session → Prop where
  | orb (url : RegistryUrl) : Turn a s (a.fetchOrb s url.1).2
  | image (image : Docker.Image) : Turn a s (a.hasImage s image).2
  | tags (image : Docker.Image) : Turn a s (a.imageTags s image).2
  | script (run : Run) : Turn a s (a.lintScript s run).2

private theorem Coherent.fetchOrb (hs : a.Coherent s) (url : RegistryUrl) : a.Coherent (a.fetchOrb s url.1).2 := by
  cases hkept : s.caches.orbs.get? url.1.id with
  | some info =>
    rw [fetchOrb_of_get?_eq_some hkept]
    exact hs
  | none =>
    rw [fetchOrb_of_get?_eq_none hkept]
    have himages := hs.images.ask_other (.orb url.1.name url.1.version) fun _ h => by cases h
    have htags := hs.tags.ask_other (.orb url.1.name url.1.version) fun _ h => by cases h
    cases hanswer : a.orbAnswer url.1 with
    | error e => exact ⟨hs.orbs.ask_failed (q := url) hanswer, himages, htags⟩
    | ok info =>
      have horbs : a.orbInquiry.Balanced (NameMap.insert s.caches.orbs url.1.id info)
          (s.asked ++ [.orb url.1.name url.1.version]) := hs.orbs.ask_answered (q := url) hkept hanswer
      rw [← a.id_of_orbAnswer hanswer] at horbs
      exact ⟨horbs, himages, htags⟩

private theorem Coherent.hasImage (hs : a.Coherent s) (image : Docker.Image) : a.Coherent (a.hasImage s image).2 := by
  rw [Analyzer.hasImage]
  cases hkept : s.caches.images.get? (Docker.repository image.owner image.name) with
  | some found => exact hs
  | none =>
    have horbs := hs.orbs.ask_other (.repository image.owner image.name) fun _ h => by cases h
    have htags := hs.tags.ask_other (.repository image.owner image.name) fun _ h => by cases h
    cases hanswer : a.hub.hasImage image.owner image.name with
    | error e => exact ⟨horbs, hs.images.ask_failed (q := image) hanswer, htags⟩
    | ok found => exact ⟨horbs, hs.images.ask_answered (q := image) hkept hanswer, htags⟩

private theorem Coherent.imageTags (hs : a.Coherent s) (image : Docker.Image) : a.Coherent (a.imageTags s image).2 := by
  rw [Analyzer.imageTags]
  cases hkept : s.caches.tags.get? (Docker.repository image.owner image.name) with
  | some tags => exact hs
  | none =>
    have horbs := hs.orbs.ask_other (.tags image.owner image.name) fun _ h => by cases h
    have himages := hs.images.ask_other (.tags image.owner image.name) fun _ h => by cases h
    cases hanswer : a.hub.tags image.owner image.name with
    | error e => exact ⟨horbs, himages, hs.tags.ask_failed (q := image) hanswer⟩
    | ok tags => exact ⟨horbs, himages, hs.tags.ask_answered (q := image) hkept hanswer⟩

private theorem Coherent.lintScript (hs : a.Coherent s) (run : Run) : a.Coherent (a.lintScript s run).2 := by
  have hasked : a.Coherent (s.ask (.script (Shell.scriptOf run.command))) :=
    ⟨hs.orbs.ask_other _ fun _ h => (by cases h), hs.images.ask_other _ fun _ h => (by cases h),
      hs.tags.ask_other _ fun _ h => (by cases h)⟩
  rw [Analyzer.lintScript]
  split_ifs
  · dsimp only
    rcases a.linter.lint s.files (Shell.scriptOf run.command) with ⟨_ | _, _⟩
    · exact ⟨hasked.orbs, hasked.images, hasked.tags⟩
    · exact ⟨hasked.orbs, hasked.images, hasked.tags⟩
  · exact hs

private theorem Coherent.turn (hs : a.Coherent s) (h : a.Turn s t) : a.Coherent t := by
  cases h with
  | orb url => exact hs.fetchOrb url
  | image image => exact hs.hasImage image
  | tags image => exact hs.imageTags image
  | script run => exact hs.lintScript run

private theorem Coherent.turns (hs : a.Coherent s) (h : ReflTransGen a.Turn s t) : a.Coherent t := by
  induction h with
  | refl => exact hs
  | tail _ hturn ih => exact ih.turn hturn

private theorem turns_fetchOrbs {uses : List OrbUse} (huses : AreRemote uses) (s : Session) :
    ReflTransGen a.Turn s (a.fetchOrbs s uses).2 := by
  induction uses generalizing s with
  | nil => exact .refl
  | cons use uses ih =>
    obtain ⟨huse, hrest⟩ := List.forall_mem_cons.mp huses
    rw [fetchOrbs_cons]
    exact .head (.orb ⟨use.url, huse⟩) (ih hrest _)

private theorem turns_checkImage (s : Session) (spec : ImageSpec) : ReflTransGen a.Turn s (a.checkImage s spec).2 := by
  have hfirst : a.Turn s (a.hasImage s spec.image).2 := .image spec.image
  rw [checkImage]
  generalize a.hasImage s spec.image = first at hfirst ⊢
  rcases first with ⟨_ | _ | _, s'⟩
  · exact .single hfirst
  · exact .single hfirst
  · have hsecond : a.Turn s' (a.imageTags s' spec.image).2 := .tags spec.image
    dsimp only
    generalize a.imageTags s' spec.image = second at hsecond ⊢
    rcases second with ⟨_ | _, s''⟩
    · exact .tail (.single hfirst) hsecond
    · exact .tail (.single hfirst) hsecond

private theorem turns_answers (s : Session) (notices : List Check.Notice) :
    ReflTransGen a.Turn s (a.answers s notices).2 := by
  induction notices generalizing s with
  | nil => exact .refl
  | cons notice notices ih =>
    have hfirst : ReflTransGen a.Turn s (a.answer s notice).2 := by
      cases notice with
      | finding d => exact .refl
      | image spec => exact turns_checkImage s spec
      | script run => exact .single (.script run)
    exact hfirst.trans (ih _)

private theorem turns_check (s : Session) (d : Document) : ReflTransGen a.Turn s (a.check s d).2 := by
  rw [check_eq]
  exact (turns_fetchOrbs d.areRemote_fetchedOrbs s).trans (turns_answers _ _)

private theorem turns_afterCall (s : Session) (call : Call) : ReflTransGen a.Turn s (a.afterCall s call) := by
  cases call with
  | analyze source =>
    rw [Analyzer.afterCall]
    cases hparse : Document.parse a.grammar source.toList with
    | error e =>
      rw [analyze_of_parse_eq_error s hparse]
    | ok d =>
      rw [analyze_of_parse_eq_ok s hparse]
      exact turns_check s d
  | check d => exact turns_check s d
  | resolveOrb reference => exact .single (.orb ⟨.parse reference, Call.isLocal_parse reference⟩)

private theorem turns_after (s : Session) (calls : List Call) : ReflTransGen a.Turn s (a.after s calls) := by
  induction calls generalizing s with
  | nil => exact .refl
  | cons call calls ih => exact (turns_afterCall s call).trans (ih _)

/-- A repository answer that is kept under a key is that of the hub for the one repository with this key. -/
def KeptFromHub {β : Type} (c : Cache β) (answer : String → String → Except Docker.HubUnavailable β) : Prop :=
  ∀ key b, c.get? key = some b → ∃ image : Docker.Image,
    Docker.repository image.owner image.name = key ∧ answer image.owner image.name = .ok b ∧
      ∀ other : Docker.Image, Docker.repository other.owner other.name = key →
        other.owner = image.owner ∧ other.name = image.name

private theorem keptFromHub_of_balanced {β : Type} {question : String → String → Question}
    {answer : String → String → Except Docker.HubUnavailable β} {c : Cache β} {asked : List Question}
    (hinj : ∀ owner name owner' name', question owner name = question owner' name' → owner = owner' ∧ name = name')
    (h : (hubInquiry question answer hinj).Balanced c asked) : KeptFromHub c answer := by
  intro key b hkept
  obtain ⟨image, hkey, hanswer, -, hunique⟩ := h.exists_question hkept
  exact ⟨image, hkey, hanswer, fun other hother => hinj _ _ _ _ (hunique other hother)⟩

/-- Every state of a session that starts with empty caches is coherent, between any two questions of its calls: an orb
that is kept has the key as its id and is what the registry gives for the one name and version of that id, a kept answer
about a repository is that of the hub, what has an answer is asked for once if it is kept and else never, and what has
no answer is not kept. A source whose reading never ends gives no contents. -/
theorem kept_is_fetched_once (a : Analyzer) (files : Files) :
    (∀ calls, ReflTransGen a.Turn { files } (a.after { files } calls)) ∧
    ∀ s, ReflTransGen a.Turn { files } s →
      (∀ id info, s.caches.orbs.get? id = some info → info.id = id ∧ ∃ url : RegistryUrl,
        url.1.name ++ "@" ++ url.1.version = id ∧
          (∃ found, a.registry.fetch url.1.name url.1.version = .ok found ∧ a.orbContents url.1 found = .ok info) ∧
          ∀ other : RegistryUrl, other.1.name ++ "@" ++ other.1.version = id →
            other.1.name = url.1.name ∧ other.1.version = url.1.version) ∧
      KeptFromHub s.caches.images a.hub.hasImage ∧
      KeptFromHub s.caches.tags a.hub.tags ∧
      (∀ (url : RegistryUrl) info, a.orbAnswer url.1 = .ok info →
        s.asked.count (.orb url.1.name url.1.version) = if (s.caches.orbs.get? url.1.id).isSome then 1 else 0) ∧
      (∀ (image : Docker.Image) found, a.hub.hasImage image.owner image.name = .ok found →
        s.asked.count (.repository image.owner image.name) =
          if (s.caches.images.get? (Docker.repository image.owner image.name)).isSome then 1 else 0) ∧
      (∀ (image : Docker.Image) tags, a.hub.tags image.owner image.name = .ok tags →
        s.asked.count (.tags image.owner image.name) =
          if (s.caches.tags.get? (Docker.repository image.owner image.name)).isSome then 1 else 0) ∧
      (∀ (url : RegistryUrl) e, a.orbAnswer url.1 = .error e → s.caches.orbs.get? url.1.id = none) ∧
      (∀ (image : Docker.Image) e, a.hub.hasImage image.owner image.name = .error e →
        s.caches.images.get? (Docker.repository image.owner image.name) = none) ∧
      ∀ (image : Docker.Image) e, a.hub.tags image.owner image.name = .error e →
        s.caches.tags.get? (Docker.repository image.owner image.name) = none := by
  refine ⟨turns_after _, fun s hturns => ?_⟩
  have hs := (a.coherent_start files).turns hturns
  refine ⟨fun id info hkept => ?_, keptFromHub_of_balanced _ hs.images, keptFromHub_of_balanced _ hs.tags,
    fun url info => hs.orbs.once url info, fun image found => hs.images.once image found,
    fun image tags => hs.tags.once image tags, fun url e => hs.orbs.get?_eq_none, fun image e => hs.images.get?_eq_none,
    fun image e => hs.tags.get?_eq_none⟩
  obtain ⟨url, rfl, hanswer, -, hunique⟩ := hs.orbs.exists_question hkept
  obtain ⟨found, hfound, hcontents⟩ := exists_of_bind_eq_ok hanswer
  refine ⟨a.id_of_orbAnswer hanswer, url, rfl, ⟨found, hfound, hcontents⟩, fun other hother => ?_⟩
  exact Question.orb.inj (hunique other hother)

end Analyzer

end PipelineLint
