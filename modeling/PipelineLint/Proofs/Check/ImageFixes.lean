import PipelineLint.Concrete.Host
import PipelineLint.Proofs.Check.Codes
import PipelineLint.Proofs.Docker.Parts
import PipelineLint.Proofs.Text.Split

/-! # Quick fixes of image references

A quick fix writes the reference of an image anew, with a tag that the hub has, or with the owner that has taken the
place of a retired one. The reference that it writes has the parts that are meant, and the finding it came with is not
made again: `fixes_settle`.
-/

namespace PipelineLint

open Docker Docker.Image Text

namespace Docker.Image

/-- The image of a spec in a document: nothing was written, or a reference was taken apart. -/
def IsRead (i : Image) : Prop := i = default ∨ ∃ text, i = parse text

variable {i : Image}

/-- An image with a name has the parts of the reference that was written. -/
theorem IsRead.exists_parts (h : i.IsRead) (hname : i.name ≠ "") : ∃ p : Parts, p.WellFormed ∧
    i.fullPath.toList = p.text ∧ i.owner = (p.owner.map String.ofList).getD officialOwner ∧
    i.name = String.ofList p.name ∧ i.tag = String.ofList ((p.rest.getD []).takeWhile (· ≠ '@')) := by
  obtain rfl | ⟨text, rfl⟩ := h
  · exact absurd rfl hname
  by_cases hform : ∃ p : Parts, p.WellFormed ∧ p.text = dropAnchor text.toList
  · obtain ⟨p, hp, htext⟩ := hform
    exact ⟨p, hp, (fullPath_parse text).trans htext.symm, parse_of_text_eq hp htext⟩
  · obtain ⟨-, hempty, -⟩ := parse_of_forall_text_ne fun p hp htext => hform ⟨p, hp, htext⟩
    exact absurd hempty hname

private theorem isWord_owner {p : Parts} (hp : p.WellFormed) :
    IsWord ((p.owner.map String.ofList).getD officialOwner).toList := by
  cases howner : p.owner with
  | some owner => simpa using hp.owner owner howner
  | none => exact ⟨by decide, List.all_eq_true.mp (by decide)⟩

end Docker.Image

def ImageSpec.withReference (spec : ImageSpec) (reference : String) : ImageSpec :=
  { spec with image := parse reference }

namespace Check

variable {spec : ImageSpec} {i : Image} {tag : String} {tags : List String}

/-- A tag that can stand in a reference as it is: no digest begins in it, it is on one line, and it is the same for all
parameters. -/
structure IsPlainTag (tag : String) : Prop where
  sign : '@' ∉ tag.toList
  line : '\n' ∉ tag.toList
  parameter : Reference.occursIn tag = false

def tagged (i : Image) (tag : String) : String := bareReference i ++ ":" ++ tag

private theorem exists_parts_tagged (hread : i.IsRead) (hname : i.name ≠ "") (hline : '\n' ∉ tag.toList) :
    ∃ p : Parts, p.WellFormed ∧ p.text = (tagged i tag).toList ∧
      (p.owner.map String.ofList).getD officialOwner = i.owner ∧ String.ofList p.name = i.name ∧
      p.rest = some tag.toList := by
  obtain ⟨p, hp, -, howner, hword, -⟩ := hread.exists_parts hname
  have hrest : ∀ rest ∈ some tag.toList, '\n' ∉ rest := by
    rintro _ ⟨⟩
    exact hline
  have hnamed : i.name.toList = p.name := by rw [hword, String.toList_ofList]
  rw [tagged, bareReference]
  split
  · next hofficial =>
    have heq : i.owner = officialOwner := by simpa using (Bool.and_eq_true_iff.mp hofficial).1
    refine ⟨⟨none, p.name, some tag.toList⟩, ⟨by simp, hp.name, hrest⟩, ?_, heq.symm, hword.symm, rfl⟩
    simp [Parts.text, hnamed]
  · have hfirst : ∀ owner ∈ some i.owner.toList, IsWord owner := by
      rintro _ ⟨⟩
      exact howner ▸ isWord_owner hp
    refine ⟨⟨some i.owner.toList, p.name, some tag.toList⟩, ⟨hfirst, hp.name, hrest⟩, ?_, by simp, hword.symm, rfl⟩
    simp [Parts.text, hnamed]

/-- An image that is written with another tag is the same but for the tag. -/
theorem parse_tagged (hread : i.IsRead) (hname : i.name ≠ "") (hsign : '@' ∉ tag.toList) (hline : '\n' ∉ tag.toList) :
    (parse (tagged i tag)).owner = i.owner ∧ (parse (tagged i tag)).name = i.name ∧ (parse (tagged i tag)).tag = tag := by
  obtain ⟨p, hp, htext, howner, hword, hrest⟩ := exists_parts_tagged hread hname hline
  obtain ⟨hfound, hnamed, htag⟩ := parse_text hp
  rw [htext, String.ofList_toList] at hfound hnamed htag
  rw [hrest, Option.getD_some, takeWhile_of_sign_notMem hsign, String.ofList_toList] at htag
  exact ⟨hfound.trans howner, hnamed.trans hword, htag⟩

/-- The quick fix that writes another tag. -/
def tagFix (spec : ImageSpec) (tag : String) : Action :=
  .replace ("Use tag `" ++ tag ++ "`") spec.imageRange ("image: " ++ tagged spec.image tag)

private theorem actions_offerTags (spec : ImageSpec) (tags : List String) (d : Diagnostic) :
    (offerTags spec tags d).actions =
      d.actions ++ ((tags.filter (!·.isEmpty)).take maxOfferedTags).map (tagFix spec) := by
  rw [offerTags]
  generalize (tags.filter (!·.isEmpty)).take maxOfferedTags = offered
  induction offered generalizing d with
  | nil => simp
  | cons tag offered ih =>
    rw [List.foldl_cons, ih, List.map_cons]
    simp [Diagnostic.withAction, tagFix, tagged, String.append_assoc]

/-- What is said about the tags of an image offers tags that there are, and nothing else. -/
theorem exists_of_mem_actions_imageTags {d : Diagnostic} {action : Action} (hd : d ∈ imageTags spec tags)
    (haction : action ∈ d.actions) : ∃ tag ∈ tags, tag ≠ "" ∧ action = tagFix spec tag := by
  have hoffered {e : Diagnostic} (he : e.actions = []) (haction : action ∈ (offerTags spec tags e).actions) :
      ∃ tag ∈ tags, tag ≠ "" ∧ action = tagFix spec tag := by
    rw [actions_offerTags, he, List.nil_append] at haction
    obtain ⟨tag, htag, rfl⟩ := List.mem_map.mp haction
    obtain ⟨hmem, hne⟩ := List.mem_filter.mp (List.mem_of_mem_take htag)
    exact ⟨tag, hmem, by simpa using hne, rfl⟩
  rw [imageTags] at hd
  split at hd
  · obtain rfl := List.mem_singleton.mp hd
    exact hoffered rfl haction
  split at hd
  · obtain rfl := List.mem_singleton.mp hd
    exact hoffered rfl haction
  · cases hd

/-- Nothing is said about an image with a tag that there is. -/
theorem imageTags_eq_nil (hmem : spec.image.tag ∈ tags) (hne : spec.image.tag ≠ "")
    (hparameter : Reference.occursIn spec.image.tag = false) : imageTags spec tags = [] := by
  have hlookup : spec.image.lookupTag = spec.image.tag := by simp [lookupTag, hasParameterTag, hne, hparameter]
  simp [imageTags, hlookup, hmem, hne]

end Check

namespace Analyzer

variable (a : Analyzer) (session : Session)

/-- What is answered about the repository of an image: whether there is one, and its tags. -/
def hubAnswer (i : Image) : Option Bool × Option (List String) :=
  ((a.hasImage session i).1, (a.imageTags (a.hasImage session i).2 i).1)

variable {a session} {i j : Image} {spec : ImageSpec} {tags : List String}

theorem hubAnswer_eq_of_eq (howner : i.owner = j.owner) (hname : i.name = j.name) :
    a.hubAnswer session i = a.hubAnswer session j := by
  simp only [hubAnswer, hasImage, imageTags, howner, hname]

private theorem checkImage_of_answer (h : a.hubAnswer session spec.image = (some true, some tags)) :
    (a.checkImage session spec).1 = Check.imageTags spec tags := by
  obtain ⟨hfound, htags⟩ := Prod.mk.inj h
  rw [checkImage]
  generalize a.hasImage session spec.image = first at hfound htags ⊢
  obtain ⟨found, session'⟩ := first
  obtain rfl : found = some true := hfound
  dsimp only at htags ⊢
  generalize a.imageTags session' spec.image = second at htags ⊢
  obtain ⟨known, session''⟩ := second
  obtain rfl : known = some tags := htags
  rfl

/-- Fixes are offered only where the tags are known. -/
theorem exists_answer_of_mem_actions {d : Diagnostic} {action : Action} (hd : d ∈ (a.checkImage session spec).1)
    (haction : action ∈ d.actions) : ∃ tags, a.hubAnswer session spec.image = (some true, some tags) := by
  rw [checkImage] at hd
  rw [hubAnswer]
  generalize a.hasImage session spec.image = first at hd ⊢
  rcases first with ⟨_ | _ | _, session'⟩
  · cases hd
  · obtain rfl := List.mem_singleton.mp hd
    cases haction
  · dsimp only at hd ⊢
    generalize a.imageTags session' spec.image = second at hd ⊢
    rcases second with ⟨_ | tags, session''⟩
    · cases hd
    · exact ⟨tags, rfl⟩

private theorem hasImage_of_get? {found : Bool}
    (h : session.caches.images.get? (repository i.owner i.name) = some found) :
    a.hasImage session i = (some found, session) := by
  rw [hasImage, h]

private theorem imageTags_of_get? (h : session.caches.tags.get? (repository i.owner i.name) = some tags) :
    a.imageTags session i = (some tags, session) := by
  rw [imageTags, h]

private theorem get?_hasImage {found : Bool} (h : (a.hasImage session i).1 = some found) :
    (a.hasImage session i).2.caches.images.get? (repository i.owner i.name) = some found := by
  rw [hasImage] at h ⊢
  cases hkept : session.caches.images.get? (repository i.owner i.name) with
  | some kept => simpa [hkept] using h
  | none =>
    cases hanswer : a.hub.hasImage i.owner i.name with
    | error e => simp [hkept, hanswer] at h
    | ok answer =>
      obtain rfl : answer = found := by simpa [hkept, hanswer] using h
      exact NameMap.get?_insert_self _ _ _

private theorem get?_imageTags (h : (a.imageTags session i).1 = some tags) :
    (a.imageTags session i).2.caches.tags.get? (repository i.owner i.name) = some tags ∧
      (a.imageTags session i).2.caches.images = session.caches.images := by
  rw [imageTags] at h ⊢
  cases hkept : session.caches.tags.get? (repository i.owner i.name) with
  | some kept => simpa [hkept] using h
  | none =>
    cases hanswer : a.hub.tags i.owner i.name with
    | error e => simp [hkept, hanswer] at h
    | ok answer =>
      obtain rfl : answer = tags := by simpa [hkept, hanswer] using h
      exact ⟨NameMap.get?_insert_self _ _ _, rfl⟩

/-- What is known of a repository is known after the check of an image in it. -/
theorem hubAnswer_checkImage (h : a.hubAnswer session spec.image = (some true, some tags)) :
    a.hubAnswer (a.checkImage session spec).2 spec.image = (some true, some tags) := by
  obtain ⟨hfound, htags⟩ := Prod.mk.inj h
  have hafter : (a.checkImage session spec).2 = (a.imageTags (a.hasImage session spec.image).2 spec.image).2 := by
    rw [checkImage]
    generalize a.hasImage session spec.image = first at hfound htags ⊢
    obtain ⟨found, session'⟩ := first
    obtain rfl : found = some true := hfound
    dsimp only at htags ⊢
    generalize a.imageTags session' spec.image = second at htags ⊢
    obtain ⟨known, session''⟩ := second
    obtain rfl : known = some tags := htags
    rfl
  have himages := get?_hasImage hfound
  obtain ⟨hkept, hsame⟩ := get?_imageTags htags
  rw [← hsame] at himages
  rw [hafter, hubAnswer, hasImage_of_get? himages, imageTags_of_get? hkept]

end Analyzer

namespace Check

variable {spec : ImageSpec} {tags : List String}

/-- The reference of an image with a retired owner, with the owner that has taken its place. -/
def renewed (i : Image) : String := replaceFirst retiredOwner successorOwner i.fullPath

theorem cut?_append (word rest : List Char) (h : word ≠ []) : cut? word (word ++ rest) = some ([], rest) := by
  obtain ⟨c, cs, rfl⟩ := List.exists_cons_of_ne_nil h
  have hprefix : dropPrefix? (c :: cs) (c :: (cs ++ rest)) = some rest := dropPrefix?_eq_some_iff.mpr rfl
  rw [List.cons_append, cut?, hprefix]

/-- A retired owner was written in front of the name, so that it is the first of its kind in the reference. -/
theorem parse_renewed (hread : spec.image.IsRead) (howner : spec.image.owner = retiredOwner) :
    (parse (renewed spec.image)).owner = successorOwner ∧ (parse (renewed spec.image)).name = spec.image.name ∧
      (parse (renewed spec.image)).tag = spec.image.tag := by
  have hname : spec.image.name ≠ "" := by
    obtain hempty | ⟨text, htext⟩ := hread
    · rw [hempty] at howner
      exact absurd howner (by decide)
    · intro hname
      by_cases hform : ∃ p : Parts, p.WellFormed ∧ p.text = dropAnchor text.toList
      · obtain ⟨p, hp, hpath⟩ := hform
        obtain ⟨-, hword, -⟩ := parse_of_text_eq hp hpath
        rw [← htext, hname] at hword
        exact hp.name.1 (by simpa using congrArg String.toList hword.symm)
      · obtain ⟨hofficial, -, -⟩ := parse_of_forall_text_ne fun p hp hpath => hform ⟨p, hp, hpath⟩
        rw [← htext, howner] at hofficial
        exact absurd hofficial (by decide)
  obtain ⟨p, hp, hpath, hfirst, hword, htag⟩ := hread.exists_parts hname
  have hwritten : p.owner = some retiredOwner.toList := by
    rw [howner] at hfirst
    cases hown : p.owner with
    | none =>
      rw [hown] at hfirst
      exact absurd hfirst (by decide)
    | some owner =>
      rw [hown] at hfirst
      simp [hfirst]
  let q : Parts := { p with owner := some successorOwner.toList }
  have hq : q.WellFormed := by
    refine ⟨?_, hp.name, hp.rest⟩
    rintro _ ⟨⟩
    exact ⟨by decide, List.all_eq_true.mp (by decide)⟩
  have htext : q.text = (renewed spec.image).toList := by
    have hsplit : spec.image.fullPath.toList =
        retiredOwner.toList ++ ('/' :: (p.name ++ p.rest.elim [] (':' :: ·))) := by
      rw [hpath, Parts.text, hwritten]
      simp
    rw [renewed, replaceFirst, hsplit, cut?_append _ _ (by decide)]
    simp [q, Parts.text]
  obtain ⟨hfound, hnamed, hrest⟩ := parse_text hq
  rw [htext, String.ofList_toList] at hfound hnamed hrest
  exact ⟨hfound, hnamed.trans hword.symm, hrest.trans htag.symm⟩

private theorem retiredImage_notMem {s : Scope} (h : spec.image.owner ≠ retiredOwner) :
    ∀ d ∈ findings (Check.image s spec), d.code ≠ some .deprecatedImage := by
  intro d hd hcode
  have hother : findings (Check.image s spec) ⊆ [.hint .invalidImage spec.imageRange "Missing image tag"] := by
    simp only [Check.image, beq_iff_eq, h, if_false, List.nil_append]
    split_ifs <;> simp
  obtain rfl := List.mem_singleton.mp (hother hd)
  cases hcode

/-- The hub is asked only about images that have a name. -/
theorem name_ne_of_asked {s : Scope} (h : .image spec ∈ Check.image s spec) : spec.image.name ≠ "" := by
  intro hname
  have hunchecked : spec.isCheckable = false := by simp [ImageSpec.isCheckable, hname]
  rw [Check.image, hunchecked] at h
  simp at h

/-- Whatever the answers of the hub, if its tags can stand in a reference, then each fix that is offered for the tag of
an image writes a reference with the same owner and name and with a tag that the hub has, and with the same answers
nothing is said about an image that is written so, neither by another analyzer nor in the session after. And each image
with the retired owner has one fix, which writes a reference with the other owner and the same name and tag, and no
image that is written so is said to be retired. -/
theorem fixes_settle (hread : spec.image.IsRead) (a : Analyzer) (session : Session)
    (htags : ∀ tags ∈ (a.hubAnswer session spec.image).2, ∀ tag ∈ tags, IsPlainTag tag) :
    (∀ s, .image spec ∈ Check.image s spec → spec.image.name ≠ "") ∧
    (spec.image.name ≠ "" → ∀ d ∈ (a.checkImage session spec).1, ∀ action ∈ d.actions, ∃ reference,
      action.edits = [⟨spec.imageRange, "image: " ++ reference⟩] ∧
        (parse reference).owner = spec.image.owner ∧ (parse reference).name = spec.image.name ∧
        (∃ tags ∈ (a.hubAnswer session spec.image).2, (parse reference).tag ∈ tags ∧
          action.title = "Use tag `" ++ (parse reference).tag ++ "`") ∧
        (∀ (a' : Analyzer) (session' : Session),
          a'.hubAnswer session' (parse reference) = a.hubAnswer session spec.image →
          (a'.checkImage session' (spec.withReference reference)).1 = []) ∧
        (a.checkImage (a.checkImage session spec).2 (spec.withReference reference)).1 = []) ∧
    (spec.image.owner = retiredOwner → ∃ reference,
      (retiredImage spec).actions.map (·.edits) = [[⟨spec.imageRange, "image: " ++ reference⟩]] ∧
      (parse reference).owner = successorOwner ∧ (parse reference).name = spec.image.name ∧
      (parse reference).tag = spec.image.tag ∧
      ∀ s, .finding (retiredImage spec) ∈ Check.image s spec ∧
        ∀ d ∈ findings (Check.image s (spec.withReference reference)), d.code ≠ some .deprecatedImage) := by
  refine ⟨fun s => name_ne_of_asked, fun hname d hd action haction => ?_, fun howner => ?_⟩
  · obtain ⟨tags, hanswer⟩ := Analyzer.exists_answer_of_mem_actions hd haction
    have hknown : tags ∈ (a.hubAnswer session spec.image).2 := congrArg Prod.snd hanswer
    rw [Analyzer.checkImage_of_answer hanswer] at hd
    obtain ⟨tag, hmem, hne, rfl⟩ := exists_of_mem_actions_imageTags hd haction
    have hplain := htags tags hknown tag hmem
    obtain ⟨howner, hnamed, htag⟩ := parse_tagged hread hname hplain.sign hplain.line
    have hquiet : imageTags (spec.withReference (tagged spec.image tag)) tags = [] := by
      refine imageTags_eq_nil ?_ ?_ ?_ <;> rw [ImageSpec.withReference, htag]
      · exact hmem
      · exact hne
      · exact hplain.parameter
    have hagain (a' : Analyzer) (session' : Session)
        (hsame : a'.hubAnswer session' (parse (tagged spec.image tag)) = a.hubAnswer session spec.image) :
        (a'.checkImage session' (spec.withReference (tagged spec.image tag))).1 = [] := by
      have hknown : a'.hubAnswer session' (spec.withReference (tagged spec.image tag)).image = (some true, some tags) :=
        hsame.trans hanswer
      rw [Analyzer.checkImage_of_answer hknown, hquiet]
    refine ⟨tagged spec.image tag, rfl, howner, hnamed, ⟨tags, hknown, ?_, ?_⟩, hagain, hagain _ _ ?_⟩
    · rwa [htag]
    · rw [htag]
      rfl
    · rw [Analyzer.hubAnswer_eq_of_eq howner hnamed, Analyzer.hubAnswer_checkImage hanswer, hanswer]
  · obtain ⟨hsuccessor, hname, htag⟩ := parse_renewed hread howner
    refine ⟨renewed spec.image, rfl, hsuccessor, hname, htag, fun s => ⟨?_, retiredImage_notMem ?_⟩⟩
    · simp [Check.image, howner]
    · rw [ImageSpec.withReference, hsuccessor]
      decide

def imageOfRetired : ImageSpec := { image := parse "circleci/node:16.0" }

def analyzerWithTags : Analyzer := { Analyzer.standard with hub := .ofImages [("circleci", "node", ["22.1", "lts"])] }

private theorem isPlainTag_of_hub :
    ∀ tags ∈ (analyzerWithTags.hubAnswer {} imageOfRetired.image).2, ∀ tag ∈ tags, IsPlainTag tag := by
  have hanswer : (analyzerWithTags.hubAnswer {} imageOfRetired.image).2 = some ["22.1", "lts"] := by decide +kernel
  rintro tags htags tag htag
  obtain rfl := Option.some.inj (hanswer.symm.trans htags)
  rcases List.mem_cons.mp htag with rfl | htag
  · exact ⟨by decide, by decide, by decide +kernel⟩
  · obtain rfl := List.mem_singleton.mp htag
    exact ⟨by decide, by decide, by decide +kernel⟩

/-- Two tags are offered, each with the name of the image, and the image of the other owner has its tag. -/
theorem fixes_settle_retired :
    ((analyzerWithTags.checkImage {} imageOfRetired).1.flatMap fun d => d.actions.map (·.edits)) =
      [[⟨{}, "image: circleci/node:22.1"⟩], [⟨{}, "image: circleci/node:lts"⟩]] ∧
    (retiredImage imageOfRetired).actions.map (·.edits) = [[⟨{}, "image: cimg/node:16.0"⟩]] ∧
    (∀ d ∈ (analyzerWithTags.checkImage {} imageOfRetired).1, ∀ action ∈ d.actions, ∃ reference,
      action.edits = [⟨{}, "image: " ++ reference⟩] ∧ (parse reference).name = "node" ∧
        (analyzerWithTags.checkImage (analyzerWithTags.checkImage {} imageOfRetired).2
          (imageOfRetired.withReference reference)).1 = []) ∧
    ∃ reference, (retiredImage imageOfRetired).actions.map (·.edits) = [[⟨{}, "image: " ++ reference⟩]] ∧
      (parse reference).owner = "cimg" ∧ (parse reference).tag = "16.0" := by
  obtain ⟨-, htags, howner⟩ := fixes_settle (.inr ⟨"circleci/node:16.0", rfl⟩) analyzerWithTags {} isPlainTag_of_hub
  refine ⟨by decide +kernel, by decide +kernel, fun d hd action haction => ?_, ?_⟩
  · obtain ⟨reference, hedits, -, hname, -, -, hquiet⟩ := htags (by decide +kernel) d hd action haction
    exact ⟨reference, hedits, hname.trans (by decide +kernel), hquiet⟩
  · obtain ⟨reference, hedits, hsuccessor, -, htag, -⟩ := howner (by decide +kernel)
    exact ⟨reference, hedits, hsuccessor, htag.trans (by decide +kernel)⟩

end Check

end PipelineLint
