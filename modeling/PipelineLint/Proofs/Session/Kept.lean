import PipelineLint.Proofs.Results
import PipelineLint.Session.Analyzer
import Mathlib.Data.List.Basic

/-! # What a session keeps

A session is honest if what it keeps under a key is what the collaborator answers to each question with that key.
The key of an orb holds its name and its version, and that of a repository its owner and its name, so one key is
never that of two questions. Every step of an analysis keeps a session honest, and an honest session gives the
answer that the collaborator gives: what an analysis gets to know does not depend on what was kept.
-/

namespace PipelineLint

section Keys

variable {α : Type} {a : α} {x x' z z' : List α}

/-- A text is cut at the first place of a separator in one way only. -/
theorem append_cons_inj_of_notMem_of_notMem (hx : a ∉ x) (hx' : a ∉ x') (h : x ++ a :: z = x' ++ a :: z') :
    x = x' ∧ z = z' := by
  induction x generalizing x' with
  | nil =>
    cases x' with
    | nil => exact ⟨rfl, (List.cons.inj h).2⟩
    | cons b x' => exact absurd (List.cons.inj h).1 fun hb => hx' (hb ▸ List.mem_cons_self)
  | cons b x ih =>
    cases x' with
    | nil => exact absurd (List.cons.inj h).1 fun hb => hx (hb ▸ List.mem_cons_self)
    | cons c x' =>
      obtain ⟨rfl, htail⟩ := List.cons.inj h
      have := ih (fun hmem => hx (List.mem_cons_of_mem _ hmem)) (fun hmem => hx' (List.mem_cons_of_mem _ hmem)) htail
      exact ⟨congrArg _ this.1, this.2⟩

theorem OrbUrl.eq_of_id_eq {u v : OrbUrl} (hu : u.isLocal = false) (hv : v.isLocal = false) (h : u.id = v.id) :
    u.name = v.name ∧ u.version = v.version := by
  have hlist : u.name.toList ++ '@' :: u.version.toList = v.name.toList ++ '@' :: v.version.toList := by
    simpa [OrbUrl.id] using congrArg String.toList h
  have := append_cons_inj_of_notMem_of_notMem (u.sign_notMem hu) (v.sign_notMem hv) hlist
  exact ⟨String.toList_injective this.1, String.toList_injective this.2⟩

theorem Docker.Image.eq_of_repository_eq {i j : Docker.Image}
    (h : Docker.repository i.owner i.name = Docker.repository j.owner j.name) :
    i.owner = j.owner ∧ i.name = j.name := by
  have hlist : i.owner.toList ++ '/' :: i.name.toList = j.owner.toList ++ '/' :: j.name.toList := by
    simpa [Docker.repository] using congrArg String.toList h
  have := append_cons_inj_of_notMem_of_notMem i.slash_notMem j.slash_notMem hlist
  exact ⟨String.toList_injective this.1, String.toList_injective this.2⟩

end Keys

namespace Cache

variable {α β ε : Type}

/-- What is kept under the key of a question is its answer. -/
def Honest (c : Cache β) (key : α → String) (answer : α → Except ε β) : Prop :=
  ∀ q b, c.get? (key q) = some b → answer q = .ok b

theorem honest_empty (key : α → String) (answer : α → Except ε β) : Honest ∅ key answer := by
  intro q b h
  cases h

/-- Keeping an answer is honest where questions with the same key have the same answer. -/
theorem Honest.insert {c : Cache β} {key : α → String} {answer : α → Except ε β} (hc : Honest c key answer)
    (hkey : ∀ q q', key q = key q' → answer q = answer q') {q : α} {b : β} (hq : answer q = .ok b) :
    Honest (NameMap.insert c (key q) b) key answer := by
  intro q' b' h
  by_cases hsame : key q' = key q
  · rw [hsame, NameMap.get?_insert_self] at h
    rw [hkey q' q hsame, hq, Option.some.inj h]
  · rw [NameMap.get?_insert_of_ne _ _ hsame] at h
    exact hc q' b' h

end Cache

namespace Analyzer

variable (a : Analyzer)

abbrev RegistryUrl := { url : OrbUrl // url.isLocal = false }

/-- What the registry makes known about an orb. -/
def orbAnswer (url : OrbUrl) : Except RegistryError OrbInfo :=
  a.registry.fetch url.name url.version >>= a.orbContents url

/-- A session that keeps only what the registry and the hub answer. -/
structure Honest (s : Session) : Prop where
  orbs : Cache.Honest s.caches.orbs (fun url : RegistryUrl => url.1.id) fun url => a.orbAnswer url.1
  images : Cache.Honest s.caches.images (fun i : Docker.Image => Docker.repository i.owner i.name)
    fun i => a.hub.hasImage i.owner i.name
  tags : Cache.Honest s.caches.tags (fun i : Docker.Image => Docker.repository i.owner i.name)
    fun i => a.hub.tags i.owner i.name

theorem honest_of_caches_eq_empty {s : Session} (h : s.caches = {}) : a.Honest s := by
  refine ⟨?_, ?_, ?_⟩ <;> rw [h] <;> exact Cache.honest_empty _ _

variable {a} in
theorem Honest.orbAnswer_of_get? {s : Session} (hs : a.Honest s) {url : RegistryUrl} {info : OrbInfo}
    (h : s.caches.orbs.get? url.1.id = some info) : a.orbAnswer url.1 = .ok info :=
  hs.orbs url info h

variable {a} in
private theorem Honest.hasImage_of_get? {s : Session} (hs : a.Honest s) {i : Docker.Image} {found : Bool}
    (h : s.caches.images.get? (Docker.repository i.owner i.name) = some found) :
    a.hub.hasImage i.owner i.name = .ok found :=
  hs.images i found h

variable {a} in
private theorem Honest.tags_of_get? {s : Session} (hs : a.Honest s) {i : Docker.Image} {tags : List String}
    (h : s.caches.tags.get? (Docker.repository i.owner i.name) = some tags) :
    a.hub.tags i.owner i.name = .ok tags :=
  hs.tags i tags h

theorem orbAnswer_eq_of_id_eq (u v : RegistryUrl) (h : u.1.id = v.1.id) : a.orbAnswer u.1 = a.orbAnswer v.1 := by
  obtain ⟨hname, hversion⟩ := OrbUrl.eq_of_id_eq u.2 v.2 h
  have hcontents : a.orbContents u.1 = a.orbContents v.1 := by
    funext found
    unfold orbContents
    rw [h]
  rw [orbAnswer, orbAnswer, hname, hversion, hcontents]

private theorem id_of_orbContents {url : OrbUrl} {found : OrbSource} {info : OrbInfo}
    (h : a.orbContents url found = .ok info) : info.id = url.id := by
  unfold orbContents at h
  split at h
  · cases h
  · rw [← Except.ok.inj h]
    split <;> rfl

theorem id_of_orbAnswer {url : OrbUrl} {info : OrbInfo} (h : a.orbAnswer url = .ok info) : info.id = url.id := by
  obtain ⟨found, -, hfound⟩ := exists_of_bind_eq_ok h
  exact a.id_of_orbContents hfound

variable {a} {s t : Session}

theorem fetchOrb_of_get?_eq_some {url : OrbUrl} {info : OrbInfo} (h : s.caches.orbs.get? url.id = some info) :
    a.fetchOrb s url = (.ok info, s) := by
  simp only [fetchOrb, h]

theorem fetchOrb_of_get?_eq_none {url : OrbUrl} (h : s.caches.orbs.get? url.id = none) :
    a.fetchOrb s url = match a.orbAnswer url with
      | .ok info => (.ok info, (s.ask (.orb url.name url.version)).keep (·.insertOrb info))
      | .error e => (.error e, s.ask (.orb url.name url.version)) := by
  rw [fetchOrb, h]
  rfl

/-- An orb whose contents are asked for gives what the registry makes known about it. -/
theorem fetchOrb_fst (hs : a.Honest s) (url : RegistryUrl) : (a.fetchOrb s url.1).1 = a.orbAnswer url.1 := by
  cases hkept : s.caches.orbs.get? url.1.id with
  | some info => rw [fetchOrb_of_get?_eq_some hkept, hs.orbAnswer_of_get? hkept]
  | none =>
    rw [fetchOrb_of_get?_eq_none hkept]
    cases a.orbAnswer url.1 <;> rfl

/-- What is kept after an orb was asked for: what was kept before, and the answer. -/
theorem get?_fetchOrb (hs : a.Honest s) (url : RegistryUrl) (id : String) :
    (a.fetchOrb s url.1).2.caches.orbs.get? id =
      if url.1.id = id then (a.orbAnswer url.1).toOption else s.caches.orbs.get? id := by
  cases hkept : s.caches.orbs.get? url.1.id with
  | some info =>
    have hanswer : a.orbAnswer url.1 = .ok info := hs.orbAnswer_of_get? hkept
    rw [fetchOrb_of_get?_eq_some hkept, hanswer]
    split_ifs with hid
    · exact hid ▸ hkept
    · rfl
  | none =>
    rw [fetchOrb_of_get?_eq_none hkept]
    cases hanswer : a.orbAnswer url.1 with
    | error e =>
      split_ifs with hid
      · exact hid ▸ hkept
      · rfl
    | ok info =>
      change (NameMap.insert s.caches.orbs info.id info).get? id = _
      rw [a.id_of_orbAnswer hanswer]
      split_ifs with hid
      · exact hid ▸ NameMap.get?_insert_self _ _ _
      · exact NameMap.get?_insert_of_ne _ _ (Ne.symm hid)

theorem fetchOrb_frame (s : Session) (url : OrbUrl) :
    (a.fetchOrb s url).2.caches.images = s.caches.images ∧ (a.fetchOrb s url).2.caches.tags = s.caches.tags ∧
      (a.fetchOrb s url).2.files = s.files := by
  cases hkept : s.caches.orbs.get? url.id with
  | some info => simp only [fetchOrb_of_get?_eq_some hkept, and_self]
  | none =>
    rw [fetchOrb_of_get?_eq_none hkept]
    cases a.orbAnswer url <;> exact ⟨rfl, rfl, rfl⟩

theorem Honest.fetchOrb (hs : a.Honest s) (url : RegistryUrl) : a.Honest (a.fetchOrb s url.1).2 := by
  obtain ⟨himages, htags, -⟩ := fetchOrb_frame (a := a) s url.1
  refine ⟨fun u info hinfo => ?_, himages ▸ hs.images, htags ▸ hs.tags⟩
  rw [get?_fetchOrb hs] at hinfo
  split_ifs at hinfo with hid
  · change a.orbAnswer u.1 = .ok info
    rw [← a.orbAnswer_eq_of_id_eq url u hid]
    cases hanswer : a.orbAnswer url.1 with
    | error e =>
      rw [hanswer] at hinfo
      cases hinfo
    | ok found =>
      rw [hanswer] at hinfo
      exact congrArg _ (Option.some.inj hinfo)
  · exact hs.orbs u info hinfo

/-- The orbs that a list of uses asks for are those of registries. -/
def AreRemote (uses : List OrbUse) : Prop := ∀ use ∈ uses, use.url.isLocal = false

theorem fetchOrbs_cons (s : Session) (use : OrbUse) (uses : List OrbUse) :
    a.fetchOrbs s (use :: uses) =
      (match (a.fetchOrb s use.url).1 with
        | .ok _ => (a.fetchOrbs (a.fetchOrb s use.url).2 uses).1
        | .error e => ⟨(use.name, e) :: (a.fetchOrbs (a.fetchOrb s use.url).2 uses).1.entries⟩,
      (a.fetchOrbs (a.fetchOrb s use.url).2 uses).2) := by
  rw [fetchOrbs]
  rcases a.fetchOrb s use.url with ⟨_ | _, _⟩ <;> rfl

/-- The reasons why orbs are not known, as the registry gives them. -/
def failuresOf (a : Analyzer) (uses : List OrbUse) : NameMap RegistryError :=
  ⟨uses.filterMap fun use => match a.orbAnswer use.url with
    | .ok _ => none
    | .error e => some (use.name, e)⟩

theorem Honest.fetchOrbs {uses : List OrbUse} (hs : a.Honest s) (huses : AreRemote uses) :
    a.Honest (a.fetchOrbs s uses).2 := by
  induction uses generalizing s with
  | nil => exact hs
  | cons use uses ih =>
    obtain ⟨huse, hrest⟩ := List.forall_mem_cons.mp huses
    rw [fetchOrbs_cons]
    exact ih (hs.fetchOrb ⟨use.url, huse⟩) hrest

theorem fetchOrbs_fst {uses : List OrbUse} (hs : a.Honest s) (huses : AreRemote uses) :
    (a.fetchOrbs s uses).1 = a.failuresOf uses := by
  induction uses generalizing s with
  | nil => rfl
  | cons use uses ih =>
    obtain ⟨huse, hrest⟩ := List.forall_mem_cons.mp huses
    have hfetch : (a.fetchOrb s use.url).1 = a.orbAnswer use.url := fetchOrb_fst hs ⟨use.url, huse⟩
    have htail := ih (hs.fetchOrb ⟨use.url, huse⟩) hrest
    rw [fetchOrbs_cons, hfetch, htail, failuresOf, failuresOf]
    cases hanswer : a.orbAnswer use.url <;> simp [hanswer]

/-- An orb that is kept as the registry answers stays so, whatever is asked for after it. -/
theorem get?_fetchOrbs_of_get?_eq {uses : List OrbUse} (hs : a.Honest s) (huses : AreRemote uses) (url : RegistryUrl)
    (h : s.caches.orbs.get? url.1.id = (a.orbAnswer url.1).toOption) :
    (a.fetchOrbs s uses).2.caches.orbs.get? url.1.id = (a.orbAnswer url.1).toOption := by
  induction uses generalizing s with
  | nil => exact h
  | cons use uses ih =>
    obtain ⟨huse, hrest⟩ := List.forall_mem_cons.mp huses
    rw [fetchOrbs_cons]
    refine ih (hs.fetchOrb ⟨use.url, huse⟩) hrest ?_
    rw [get?_fetchOrb hs ⟨use.url, huse⟩]
    split_ifs with hid
    · rw [a.orbAnswer_eq_of_id_eq ⟨use.url, huse⟩ url hid]
    · exact h

/-- An orb that was asked for is kept just as the registry answers. -/
theorem get?_fetchOrbs_of_mem {uses : List OrbUse} (hs : a.Honest s) (huses : AreRemote uses) {use : OrbUse}
    (h : use ∈ uses) :
    (a.fetchOrbs s uses).2.caches.orbs.get? use.url.id = (a.orbAnswer use.url).toOption := by
  induction uses generalizing s with
  | nil => cases h
  | cons other uses ih =>
    obtain ⟨hother, hrest⟩ := List.forall_mem_cons.mp huses
    rw [fetchOrbs_cons]
    rcases List.mem_cons.mp h with rfl | h
    · refine get?_fetchOrbs_of_get?_eq (hs.fetchOrb ⟨use.url, hother⟩) hrest ⟨use.url, hother⟩ ?_
      rw [get?_fetchOrb hs ⟨use.url, hother⟩, if_pos rfl]
    · exact ih (hs.fetchOrb ⟨other.url, hother⟩) hrest h

theorem get?_fetchOrbs_of_notMem {uses : List OrbUse} (hs : a.Honest s) (huses : AreRemote uses) {id : String}
    (h : ∀ use ∈ uses, use.url.id ≠ id) :
    (a.fetchOrbs s uses).2.caches.orbs.get? id = s.caches.orbs.get? id := by
  induction uses generalizing s with
  | nil => rfl
  | cons use uses ih =>
    obtain ⟨huse, hrest⟩ := List.forall_mem_cons.mp huses
    obtain ⟨hne, hother⟩ := List.forall_mem_cons.mp h
    rw [fetchOrbs_cons]
    have htail := ih (hs.fetchOrb ⟨use.url, huse⟩) hrest hother
    rw [htail, get?_fetchOrb hs ⟨use.url, huse⟩, if_neg hne]

theorem files_fetchOrbs (s : Session) (uses : List OrbUse) : (a.fetchOrbs s uses).2.files = s.files := by
  induction uses generalizing s with
  | nil => rfl
  | cons use uses ih => rw [fetchOrbs_cons, ih, (fetchOrb_frame s use.url).2.2]

private theorem hasImage_spec (hs : a.Honest s) (i : Docker.Image) :
    (a.hasImage s i).1 = (a.hub.hasImage i.owner i.name).toOption ∧ a.Honest (a.hasImage s i).2 ∧
      (a.hasImage s i).2.caches.orbs = s.caches.orbs ∧ (a.hasImage s i).2.files = s.files := by
  rw [hasImage]
  cases hkept : s.caches.images.get? (Docker.repository i.owner i.name) with
  | some found => exact ⟨by rw [hs.hasImage_of_get? hkept]; rfl, hs, rfl, rfl⟩
  | none =>
    cases hanswer : a.hub.hasImage i.owner i.name with
    | error e => exact ⟨rfl, ⟨hs.orbs, hs.images, hs.tags⟩, rfl, rfl⟩
    | ok found =>
      refine ⟨rfl, ⟨hs.orbs, hs.images.insert (fun i j h => ?_) hanswer, hs.tags⟩, rfl, rfl⟩
      obtain ⟨howner, hname⟩ := Docker.Image.eq_of_repository_eq h
      rw [howner, hname]

private theorem imageTags_spec (hs : a.Honest s) (i : Docker.Image) :
    (a.imageTags s i).1 = (a.hub.tags i.owner i.name).toOption ∧ a.Honest (a.imageTags s i).2 ∧
      (a.imageTags s i).2.caches.orbs = s.caches.orbs ∧ (a.imageTags s i).2.files = s.files := by
  rw [imageTags]
  cases hkept : s.caches.tags.get? (Docker.repository i.owner i.name) with
  | some tags => exact ⟨by rw [hs.tags_of_get? hkept]; rfl, hs, rfl, rfl⟩
  | none =>
    cases hanswer : a.hub.tags i.owner i.name with
    | error e => exact ⟨rfl, ⟨hs.orbs, hs.images, hs.tags⟩, rfl, rfl⟩
    | ok tags =>
      refine ⟨rfl, ⟨hs.orbs, hs.images, hs.tags.insert (fun i j h => ?_) hanswer⟩, rfl, rfl⟩
      obtain ⟨howner, hname⟩ := Docker.Image.eq_of_repository_eq h
      rw [howner, hname]

/-- What follows from the answers of the hub about an image. -/
def imageFindings (a : Analyzer) (spec : ImageSpec) : List Diagnostic :=
  match (a.hub.hasImage spec.image.owner spec.image.name).toOption with
  | none => []
  | some false => [Check.imageNotFound spec]
  | some true => match (a.hub.tags spec.image.owner spec.image.name).toOption with
    | none => []
    | some tags => Check.imageTags spec tags

theorem checkImage_spec (hs : a.Honest s) (spec : ImageSpec) :
    (a.checkImage s spec).1 = a.imageFindings spec ∧ a.Honest (a.checkImage s spec).2 ∧
      (a.checkImage s spec).2.caches.orbs = s.caches.orbs ∧ (a.checkImage s spec).2.files = s.files := by
  obtain ⟨hanswer, hhonest, horbs, hfiles⟩ := hasImage_spec hs spec.image
  rw [checkImage, imageFindings, ← hanswer]
  generalize a.hasImage s spec.image = first at hhonest horbs hfiles ⊢
  rcases first with ⟨_ | _ | _, s'⟩
  · exact ⟨rfl, hhonest, horbs, hfiles⟩
  · exact ⟨rfl, hhonest, horbs, hfiles⟩
  · obtain ⟨htags, hhonest', horbs', hfiles'⟩ := imageTags_spec hhonest spec.image
    simp only [← htags]
    generalize a.imageTags s' spec.image = second at hhonest' horbs' hfiles' ⊢
    rcases second with ⟨_ | tags, s''⟩
    · exact ⟨rfl, hhonest', horbs'.trans horbs, hfiles'.trans hfiles⟩
    · exact ⟨rfl, hhonest', horbs'.trans horbs, hfiles'.trans hfiles⟩

private theorem Honest.lintScript (hs : a.Honest s) (run : Run) :
    a.Honest (a.lintScript s run).2 ∧ (a.lintScript s run).2.caches = s.caches := by
  have hcaches : (a.lintScript s run).2.caches = s.caches := by
    rw [Analyzer.lintScript]
    split_ifs
    · dsimp only
      rcases a.linter.lint s.files (Shell.scriptOf run.command) with ⟨_ | _, _⟩ <;> rfl
    · rfl
  refine ⟨⟨?_, ?_, ?_⟩, hcaches⟩ <;> rw [hcaches]
  exacts [hs.orbs, hs.images, hs.tags]

theorem lintScript_eq_of_files_eq (h : s.files = t.files) (run : Run) :
    (a.lintScript s run).1 = (a.lintScript t run).1 ∧
      (a.lintScript s run).2.files = (a.lintScript t run).2.files := by
  simp only [Analyzer.lintScript, h]
  split_ifs
  · rcases a.linter.lint t.files (Shell.scriptOf run.command) with ⟨_ | _, _⟩ <;> exact ⟨rfl, rfl⟩
  · exact ⟨rfl, h⟩

theorem Honest.answer (hs : a.Honest s) (notice : Check.Notice) :
    a.Honest (a.answer s notice).2 ∧ (a.answer s notice).2.caches.orbs = s.caches.orbs := by
  cases notice with
  | finding d => exact ⟨hs, rfl⟩
  | image spec => exact ⟨(checkImage_spec hs spec).2.1, (checkImage_spec hs spec).2.2.1⟩
  | script run => exact ⟨(hs.lintScript run).1, congrArg _ (hs.lintScript run).2⟩

theorem Honest.answers (hs : a.Honest s) (notices : List Check.Notice) :
    a.Honest (a.answers s notices).2 ∧ (a.answers s notices).2.caches.orbs = s.caches.orbs := by
  induction notices generalizing s with
  | nil => exact ⟨hs, rfl⟩
  | cons notice notices ih =>
    obtain ⟨hfirst, horbs⟩ := hs.answer notice
    obtain ⟨hrest, horbs'⟩ := ih hfirst
    exact ⟨hrest, horbs'.trans horbs⟩

theorem answer_eq (hs : a.Honest s) (ht : a.Honest t) (h : s.files = t.files) (notice : Check.Notice) :
    (a.answer s notice).1 = (a.answer t notice).1 ∧
      (a.answer s notice).2.files = (a.answer t notice).2.files := by
  cases notice with
  | finding d => exact ⟨rfl, h⟩
  | script run => exact lintScript_eq_of_files_eq h run
  | image spec =>
    obtain ⟨hfound, -, -, hfiles⟩ := checkImage_spec hs spec
    obtain ⟨hfound', -, -, hfiles'⟩ := checkImage_spec ht spec
    exact ⟨hfound.trans hfound'.symm, hfiles.trans (h.trans hfiles'.symm)⟩

/-- Honest sessions with the same files lead to the same findings. -/
theorem answers_eq (hs : a.Honest s) (ht : a.Honest t) (h : s.files = t.files) (notices : List Check.Notice) :
    (a.answers s notices).1 = (a.answers t notices).1 := by
  induction notices generalizing s t with
  | nil => rfl
  | cons notice notices ih =>
    obtain ⟨hfound, hfiles⟩ := answer_eq hs ht h notice
    have hrest := ih (hs.answer notice).1 (ht.answer notice).1 hfiles
    simp only [Analyzer.answers, hfound, hrest]

end Analyzer

end PipelineLint
