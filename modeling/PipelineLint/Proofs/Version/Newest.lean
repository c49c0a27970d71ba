import PipelineLint.Version
import PipelineLint.Proofs.Reference
import PipelineLint.Proofs.Text.Blank
import PipelineLint.Proofs.Text.Integer
import PipelineLint.Proofs.Text.Split
import PipelineLint.Proofs.Version.Order
import Mathlib.Order.Bounds.Basic
import Mathlib.Order.MinMax

/-! # The newest versions

Around a version stand all those that are published. Of these and itself the newest one is told, and the newest ones
that share its major number, or its major and minor number: each is the greatest in the order of versions
(`newest_versions_exact`), in whatever order they are published. What is published and cannot be read does not count.

A complete version is read from one text only, the text that it is told with (`strict?_eq_some_iff`): its numbers have
no extra zeros, and the marks before its labels and the points between them are in the labels of none. What is read
from a partial text is a complete version all the same. So whatever text a version is read from, its own text is read
as that version again (`ofText?_text`), and versions with the same text are the same.
-/

namespace PipelineLint

namespace Version

open Text

section Numbers

variable {n : Nat} {cs rest : List Char}

private theorem hasExtraZero_toDigits (n : Nat) : hasExtraZero (Nat.toDigits 10 n) = false := by
  rcases Nat.eq_zero_or_pos n with rfl | hn
  · rfl
  · rw [hasExtraZero, beq_eq_false_iff_ne.mpr (head?_toDigits_ne hn), Bool.false_and]

private theorem number?_toDigits (hn : n < 2 ^ 64) (hrest : ∀ c ∈ rest.head?, c.isDigit = false) :
    number? (Nat.toDigits 10 n ++ rest) = some (n, rest) := by
  simp only [number?, takeWhile_run isDigit_of_mem_toDigits hrest, dropWhile_run isDigit_of_mem_toDigits hrest,
    hasExtraZero_toDigits, unsigned?_toDigits hn]
  rfl

private theorem of_number?_eq_some (h : number? cs = some (n, rest)) : n < 2 ^ 64 ∧ cs = Nat.toDigits 10 n ++ rest := by
  have hdigits : ∀ d ∈ cs.takeWhile Char.isDigit, d.isDigit = true := fun d => List.mem_takeWhile_imp
  rw [number?] at h
  split at h
  · cases h
  next hzero =>
  obtain ⟨k, hk, heq⟩ := Option.bind_eq_some_iff.mp h
  obtain ⟨rfl, rfl⟩ := Prod.mk.inj (Option.some.inj heq)
  obtain ⟨hne, rfl, hlt⟩ := (unsigned?_eq_some_iff hdigits).mp hk
  have hhead (hlength : 1 < (cs.takeWhile Char.isDigit).length) : (cs.takeWhile Char.isDigit).head? ≠ some '0' := by
    simpa [hasExtraZero, hlength] using hzero
  exact ⟨hlt, by rw [toDigits_ofDigits hdigits hne hhead, List.takeWhile_append_dropWhile]⟩

end Numbers

/-- The characters of labels and of the points between them. -/
def inLabels (c : Char) : Bool := isLabelChar c || c == '.'

/-- A label has characters, all of those that labels have. -/
structure IsLabel (label : List Char) : Prop where
  ne_nil : label ≠ []
  isLabelChar : ∀ c ∈ label, isLabelChar c = true

def labelled (mark : Char) (labels : List (List Char)) : List Char :=
  if labels.isEmpty then [] else mark :: join ['.'] labels

section Labels

variable {mark : Char} {cs rest : List Char} {labels : List (List Char)}

private theorem of_labels?_eq_some (h : labels? cs = some (labels, rest)) :
    labels ≠ [] ∧ (∀ label ∈ labels, IsLabel label) ∧ cs = join ['.'] labels ++ rest := by
  rw [labels?] at h
  obtain ⟨hnone, heq⟩ := Option.ite_none_left_eq_some.mp h
  obtain ⟨rfl, rfl⟩ := Prod.mk.inj (Option.some.inj heq)
  refine ⟨splitAtChar_ne_nil _ _, fun label hlabel => ⟨?_, fun c hc => ?_⟩, ?_⟩
  · rintro rfl
    exact hnone (List.any_eq_true.mpr ⟨[], hlabel, rfl⟩)
  · have hmem : c ∈ cs.takeWhile inLabels := join_splitAtChar '.' (cs.takeWhile inLabels) ▸ mem_join_of_mem hlabel hc
    have hpoint : c ≠ '.' := fun hpoint => notMem_of_mem_splitAtChar hlabel (hpoint ▸ hc)
    simpa [inLabels, hpoint] using List.mem_takeWhile_imp hmem
  · rw [join_splitAtChar, List.takeWhile_append_dropWhile]

theorem inLabels_of_mem_join (hlabels : ∀ label ∈ labels, IsLabel label) :
    ∀ c ∈ join ['.'] labels, inLabels c = true := by
  intro c hc
  rcases mem_join hc with rfl | ⟨label, hlabel, hc⟩
  · rfl
  · rw [inLabels, (hlabels label hlabel).isLabelChar c hc, Bool.true_or]

private theorem labels?_join (hlabels : ∀ label ∈ labels, IsLabel label) (hne : labels ≠ [])
    (hrest : ∀ c ∈ rest.head?, inLabels c = false) : labels? (join ['.'] labels ++ rest) = some (labels, rest) := by
  have hrun := inLabels_of_mem_join hlabels
  have hsplit : splitAtChar '.' (join ['.'] labels) = labels :=
    splitAtChar_join (fun label hlabel hpoint => absurd ((hlabels label hlabel).isLabelChar '.' hpoint) (by decide)) hne
  have hnone : labels.any List.isEmpty = false := by
    simpa using fun label hlabel => (hlabels label hlabel).ne_nil
  change (if (splitAtChar '.' ((join ['.'] labels ++ rest).takeWhile inLabels)).any List.isEmpty then none
    else some (splitAtChar '.' ((join ['.'] labels ++ rest).takeWhile inLabels),
      (join ['.'] labels ++ rest).dropWhile inLabels)) = _
  rw [takeWhile_run hrun hrest, dropWhile_run hrun hrest, hsplit, hnone]
  rfl

/-- Labels after a mark, or none where the mark is missing. -/
def marked? (mark : Char) : List Char → Option (List (List Char) × List Char)
  | [] => some ([], [])
  | c :: more => if c = mark then labels? more else some ([], c :: more)

theorem marked?_of_ne (h : ∀ more, cs = mark :: more → False) : marked? mark cs = some ([], cs) := by
  cases cs with
  | nil => rfl
  | cons c more => exact if_neg fun hc : c = mark => h more (hc ▸ rfl)

theorem marked?_cons (mark : Char) (more : List Char) : marked? mark (mark :: more) = labels? more := if_pos rfl

private theorem of_marked?_eq_some (h : marked? mark cs = some (labels, rest)) :
    (∀ label ∈ labels, IsLabel label) ∧ cs = labelled mark labels ++ rest := by
  by_cases hmark : ∃ more, cs = mark :: more
  · obtain ⟨more, rfl⟩ := hmark
    rw [marked?_cons] at h
    obtain ⟨hne, hlabels, rfl⟩ := of_labels?_eq_some h
    exact ⟨hlabels, by simp [labelled, hne]⟩
  · rw [marked?_of_ne fun more hmore => hmark ⟨more, hmore⟩] at h
    obtain ⟨rfl, rfl⟩ := Prod.mk.inj (Option.some.inj h)
    exact ⟨by simp, rfl⟩

private theorem marked?_labelled (hlabels : ∀ label ∈ labels, IsLabel label)
    (hrest : ∀ c ∈ rest.head?, c ≠ mark ∧ inLabels c = false) :
    marked? mark (labelled mark labels ++ rest) = some (labels, rest) := by
  by_cases hne : labels = []
  · subst hne
    refine marked?_of_ne fun more hmore => ?_
    obtain rfl : rest = mark :: more := hmore
    exact (hrest mark rfl).1 rfl
  · have hlabelled : labelled mark labels ++ rest = mark :: (join ['.'] labels ++ rest) := by simp [labelled, hne]
    rw [hlabelled, marked?_cons, labels?_join hlabels hne fun c hc => (hrest c hc).2]

private theorem head?_labelled {c : Char} (hc : c ∈ (labelled mark labels ++ rest).head?) :
    c = mark ∨ c ∈ rest.head? := by
  rw [labelled] at hc
  split at hc
  · exact .inr hc
  · exact .inl (Option.some.inj hc).symm

end Labels

/-- The version is one that a text can tell. -/
structure Tellable (v : Version) : Prop where
  major : v.major < 2 ^ 64
  minor : v.minor < 2 ^ 64
  patch : v.patch < 2 ^ 64
  pre : ∀ label ∈ v.pre, IsLabel label
  build : ∀ label ∈ v.build, IsLabel label
  /-- Numbers in a pre-release have no extra zeros; in a build they may. -/
  noExtraZero : v.pre.any (fun label => isNumeric label && hasExtraZero label) = false

theorem toList_text (v : Version) : v.text.toList = Nat.toDigits 10 v.major ++ '.' :: (Nat.toDigits 10 v.minor ++
    '.' :: (Nat.toDigits 10 v.patch ++ (labelled '-' v.pre ++ (labelled '+' v.build ++ [])))) := by
  have hnumber (n : Nat) : (toString n).toList = Nat.toDigits 10 n := Nat.toList_repr
  have hlabels (mark : Char) (start : String) (hstart : start.toList = [mark]) (labels : List (List Char)) :
      (if labels.isEmpty then "" else start ++ labelText labels).toList = labelled mark labels := by
    rw [labelled]
    split
    · rfl
    · simp [labelText, hstart]
  simp only [text, String.toList_append, hnumber, hlabels '-' "-" rfl, hlabels '+' "+" rfl, List.append_assoc,
    List.append_nil]
  rfl

theorem strict?_eq (cs : List Char) : strict? cs = (number? cs).bind fun x =>
    (dropPrefix? ['.'] x.2).bind fun rest => (number? rest).bind fun y =>
    (dropPrefix? ['.'] y.2).bind fun rest => (number? rest).bind fun z =>
    (marked? '-' z.2).bind fun pre =>
    if pre.1.any (fun label => isNumeric label && hasExtraZero label) then none
    else (marked? '+' pre.2).bind fun build =>
      if build.2.isEmpty then some ⟨x.1, y.1, z.1, pre.1, build.1⟩ else none := by
  simp only [strict?]
  refine bind_congr fun x => bind_congr fun _ => bind_congr fun y => bind_congr fun _ => bind_congr fun z => ?_
  split
  case' h_1 h => rw [h, marked?_cons]
  case' h_2 h => rw [marked?_of_ne h]
  all_goals
    refine bind_congr fun pre => ?_
    split
    · rfl
    split
    · next h =>
      rw [h, marked?_cons]
      rfl
    · next h =>
      rw [marked?_of_ne h]
      rfl

/-- A complete version is read from its text and from no other. -/
theorem strict?_eq_some_iff {cs : List Char} {v : Version} : strict? cs = some v ↔ Tellable v ∧ cs = v.text.toList := by
  rw [strict?_eq, toList_text]
  constructor
  · intro h
    obtain ⟨⟨major, rest⟩, hmajor, h⟩ := Option.bind_eq_some_iff.mp h
    obtain ⟨rest, hpoint, h⟩ := Option.bind_eq_some_iff.mp h
    obtain ⟨⟨minor, rest⟩, hminor, h⟩ := Option.bind_eq_some_iff.mp h
    obtain ⟨rest, hpoint', h⟩ := Option.bind_eq_some_iff.mp h
    obtain ⟨⟨patch, rest⟩, hpatch, h⟩ := Option.bind_eq_some_iff.mp h
    obtain ⟨⟨pre, rest⟩, hpre, h⟩ := Option.bind_eq_some_iff.mp h
    obtain ⟨hzero, h⟩ := Option.ite_none_left_eq_some.mp h
    obtain ⟨⟨build, rest⟩, hbuild, h⟩ := Option.bind_eq_some_iff.mp h
    obtain ⟨hempty, heq⟩ := Option.ite_none_right_eq_some.mp h
    obtain ⟨hmajor_lt, rfl⟩ := of_number?_eq_some hmajor
    obtain rfl := dropPrefix?_eq_some_iff.mp hpoint
    obtain ⟨hminor_lt, rfl⟩ := of_number?_eq_some hminor
    obtain rfl := dropPrefix?_eq_some_iff.mp hpoint'
    obtain ⟨hpatch_lt, rfl⟩ := of_number?_eq_some hpatch
    obtain ⟨hpre_labels, rfl⟩ := of_marked?_eq_some hpre
    obtain ⟨hbuild_labels, rfl⟩ := of_marked?_eq_some hbuild
    obtain rfl := List.isEmpty_iff.mp hempty
    obtain rfl := Option.some.inj heq
    exact ⟨⟨hmajor_lt, hminor_lt, hpatch_lt, hpre_labels, hbuild_labels, Bool.eq_false_iff.mpr hzero⟩, rfl⟩
  · rintro ⟨h, rfl⟩
    have hpoint (rest : List Char) : ∀ c ∈ ('.' :: rest).head?, c.isDigit = false := by
      rintro c ⟨⟩
      rfl
    have hbuild : ∀ c ∈ (labelled '+' v.build ++ []).head?, c = '+' :=
      fun c hc => (head?_labelled hc).resolve_right nofun
    have hpre : ∀ c ∈ (labelled '-' v.pre ++ (labelled '+' v.build ++ [])).head?, c.isDigit = false := by
      intro c hc
      rcases head?_labelled hc with rfl | hc
      · rfl
      · rw [hbuild c hc]
        rfl
    have hdrop (rest : List Char) : dropPrefix? ['.'] ('.' :: rest) = some rest := rfl
    have hnothing : ∀ c ∈ ([] : List Char).head?, c ≠ '+' ∧ inLabels c = false := nofun
    have hplus : ∀ c ∈ (labelled '+' v.build ++ []).head?, c ≠ '-' ∧ inLabels c = false := by
      intro c hc
      rw [hbuild c hc]
      decide
    simp only [number?_toDigits h.major (hpoint _), number?_toDigits h.minor (hpoint _), number?_toDigits h.patch hpre,
      marked?_labelled h.pre hplus, marked?_labelled h.build hnothing, hdrop, Option.bind_some,
      h.noExtraZero, List.isEmpty_nil, if_true, Bool.false_eq_true, if_false]

/-- What stands in the text of a version is not blank. -/
theorem noBlank_text {v : Version} (h : Tellable v) : NoBlank v.text.toList := by
  have hlabels : ∀ c, inLabels c = true → isBlank c = false := by
    intro c hc
    rcases Bool.or_eq_true_iff.mp hc with hc | hc
    · refine Reference.isBlank_eq_false_of_isNameChar ?_
      rcases Bool.or_eq_true_iff.mp hc with hc | hc <;> simp [Reference.isNameChar, hc]
    · rw [eq_of_beq hc]
      rfl
  have hdigit (n : Nat) : ∀ c ∈ Nat.toDigits 10 n, isBlank c = false := fun c hc =>
    hlabels c (by simp [inLabels, isLabelChar, Char.isAlphanum, isDigit_of_mem_toDigits c hc])
  have hlabelled (mark : Char) (hmark : isBlank mark = false) (labels : List (List Char))
      (hlabel : ∀ label ∈ labels, IsLabel label) : ∀ c ∈ labelled mark labels, isBlank c = false := by
    intro c hc
    rw [labelled] at hc
    split at hc
    · cases hc
    · rcases List.mem_cons.mp hc with rfl | hc
      · exact hmark
      · exact hlabels c (inLabels_of_mem_join hlabel c hc)
  intro c hc
  simp only [toList_text, List.mem_append, List.mem_cons, List.append_nil] at hc
  rcases hc with hc | rfl | hc | rfl | hc | hc | hc
  · exact hdigit _ c hc
  · rfl
  · exact hdigit _ c hc
  · rfl
  · exact hdigit _ c hc
  · exact hlabelled '-' rfl _ h.pre c hc
  · exact hlabelled '+' rfl _ h.build c hc

private theorem bare_text {v : Version} (h : Tellable v) : bare v.text.toList = v.text.toList := by
  have htrim : trim v.text.toList = v.text.toList :=
    (trim_eq_iff (noBlank_text h)).mpr ⟨[], [], by simp [Blanks], by simp [Blanks], by simp⟩
  have hhead : ∀ c ∈ v.text.toList.head?, (c == 'v') = false := by
    intro c hc
    rw [toList_text, List.head?_append_of_ne_nil _ Nat.toDigits_ne_nil] at hc
    have hdigit := isDigit_of_mem_toDigits c (List.mem_of_mem_head? hc)
    rw [beq_eq_false_iff_ne]
    rintro rfl
    cases hdigit
  rw [bare, htrim]
  generalize v.text.toList = cs at hhead
  exact dropWhile_run (List.forall_mem_nil _) hhead

theorem ofText?_text {v : Version} (h : Tellable v) : ofText? v.text = some v := by
  rw [ofText?, read?, bare_text h, strict?_eq_some_iff.mpr ⟨h, rfl⟩]

private theorem lt_of_mem_numbers {parts : List (List Char)} {numbers : List Nat}
    (h : parts.mapM (unsigned? 64) = some numbers) : ∀ n ∈ numbers, n < 2 ^ 64 := by
  induction parts generalizing numbers with
  | nil =>
    obtain rfl : [] = numbers := by simpa using h
    simp
  | cons part parts ih =>
    rw [List.mapM_cons] at h
    obtain ⟨n, hn, h⟩ := Option.bind_eq_some_iff.mp h
    obtain ⟨ns, hns, heq⟩ := Option.bind_eq_some_iff.mp h
    obtain rfl := Option.some.inj heq
    exact List.forall_mem_cons.mpr ⟨lt_of_unsigned?_eq_some hn, ih hns⟩

/-- What is read from a text, complete or not, is a version that a text can tell. -/
theorem tellable_of_ofText? {source : String} {v : Version} (h : ofText? source = some v) : Tellable v := by
  rw [ofText?, read?] at h
  split at h
  · next hstrict =>
    obtain rfl := Option.some.inj h
    exact (strict?_eq_some_iff.mp hstrict).1
  · obtain ⟨numbers, hnumbers, h⟩ := Option.bind_eq_some_iff.mp h
    have hlt := lt_of_mem_numbers hnumbers
    have hzero : 0 < 2 ^ 64 := Nat.two_pow_pos 64
    split at h
    · obtain rfl := Option.some.inj h
      exact ⟨hlt _ (by simp), hzero, hzero, by simp, by simp, rfl⟩
    · obtain rfl := Option.some.inj h
      exact ⟨hlt _ (by simp), hlt _ (by simp), hzero, by simp, by simp, rfl⟩
    · obtain rfl := Option.some.inj h
      exact ⟨hlt _ (by simp), hlt _ (by simp), hlt _ (by simp), by simp, by simp, rfl⟩
    · cases h

/-- Versions that can be told are told apart. -/
theorem text_inj {v w : Version} (hv : Tellable v) (hw : Tellable w) : v.text = w.text ↔ v = w := by
  refine ⟨fun h => Option.some.inj ?_, fun h => h ▸ rfl⟩
  rw [← ofText?_text hv, h, ofText?_text hw]

end Version

namespace Version

private theorem newest_eq_max (v w : Version) : newest v w = max v w := by
  rw [newest]
  by_cases h : w.newerThan v = true
  · rw [if_pos h, max_eq_right (newerThan_iff.mp h).le]
  · rw [if_neg h, max_eq_left (not_lt.mp fun hlt => h (newerThan_iff.mpr hlt))]

theorem isGreatest_newest (c : Version) (vs : List Version) : IsGreatest {v | v = c ∨ v ∈ vs} (vs.foldl newest c) := by
  induction vs generalizing c with
  | nil => exact ⟨.inl rfl, by rintro v (rfl | hv); exacts [le_rfl, absurd hv List.not_mem_nil]⟩
  | cons w vs ih =>
    obtain ⟨hmem, hbound⟩ := ih (newest c w)
    rw [List.foldl_cons]
    rw [newest_eq_max] at hmem hbound ⊢
    refine ⟨?_, ?_⟩
    · rcases hmem with hmax | hmem
      · rcases max_choice c w with hc | hw
        · exact .inl (hmax.trans hc)
        · exact .inr (List.mem_cons.mpr (.inl (hmax.trans hw)))
      · exact .inr (List.mem_cons_of_mem _ hmem)
    · have hmax : max c w ≤ vs.foldl newest (max c w) := hbound (.inl rfl)
      rintro v (rfl | hv)
      · exact (le_max_left _ _).trans hmax
      · rcases List.mem_cons.mp hv with rfl | hv
        · exact (le_max_right _ _).trans hmax
        · exact hbound (.inr hv)

private theorem foldl_newest_eq_of_perm {vs ws : List Version} (h : vs.Perm ws) (c : Version) :
    vs.foldl newest c = ws.foldl newest c := by
  have hsame : {v | v = c ∨ v ∈ vs} = {v | v = c ∨ v ∈ ws} := by
    ext v
    exact or_congr_right h.mem_iff
  exact (isGreatest_newest c vs).unique (hsame ▸ isGreatest_newest c ws)

theorem isNewer_iff {current candidate : String} : isNewer current candidate = true ↔
    ∃ v w, ofText? current = some v ∧ ofText? candidate = some w ∧ v < w := by
  rw [isNewer]
  cases ofText? current with
  | none => simp
  | some v =>
    cases ofText? candidate with
    | none => simp
    | some w => simp [newerThan_iff]

end Version

namespace NewestVersions

open Version

/-- A version and those among the published texts that can be read. -/
def around (c : Version) (published : List String) : Set Version :=
  {v | v = c ∨ ∃ text ∈ published, ofText? text = some v}

/-- The newest versions around one, and the newest among those that share its first numbers. -/
structure AreNewest (c : Version) (published : List String) (latest minor patch : Version) : Prop where
  latest : IsGreatest (around c published) latest
  minor : IsGreatest {v ∈ around c published | v.major = c.major} minor
  patch : IsGreatest {v ∈ around c published | v.major = c.major ∧ v.minor = c.minor} patch

namespace AreNewest

variable {c latest minor patch : Version} {published : List String}

theorem le_patch (h : AreNewest c published latest minor patch) : c ≤ patch := h.patch.2 ⟨.inl rfl, rfl, rfl⟩

theorem patch_le_minor (h : AreNewest c published latest minor patch) : patch ≤ minor :=
  h.minor.2 ⟨h.patch.1.1, h.patch.1.2.1⟩

theorem minor_le_latest (h : AreNewest c published latest minor patch) : minor ≤ latest := h.latest.2 h.minor.1.1

end AreNewest

/-- The fold over the versions of a kind gives the greatest of this kind. -/
theorem isGreatest_where (c : Version) (published : List String) {p : Version → Bool} (hc : p c = true) :
    IsGreatest {v ∈ around c published | p v = true}
      (((published.filterMap ofText?).filter p).foldl newest c) := by
  have hsame : {v ∈ around c published | p v = true} = {v | v = c ∨ v ∈ (published.filterMap ofText?).filter p} := by
    ext v
    simp only [around, Set.mem_ofPred_eq, List.mem_filter, List.mem_filterMap]
    constructor
    · rintro ⟨rfl | hv, hp⟩
      · exact .inl rfl
      · exact .inr ⟨hv, hp⟩
    · rintro (rfl | ⟨hv, hp⟩)
      · exact ⟨.inl rfl, hc⟩
      · exact ⟨.inr hv, hp⟩
  rw [hsame]
  exact isGreatest_newest c _

theorem exists_areNewest {current : String} {c : Version} (h : ofText? current = some c) (published : List String) :
    ∃ latest minor patch, of? current published = some ⟨latest.text, minor.text, patch.text⟩ ∧
      AreNewest c published latest minor patch := by
  refine ⟨_, _, _, by rw [of?, h]; rfl, ?_, ?_, ?_⟩
  · simpa using isGreatest_where c published (p := fun _ => true) rfl
  · simpa using isGreatest_where c published (p := fun v => v.major == c.major) (beq_self_eq_true _)
  · have hboth := isGreatest_where c published (p := fun v => v.minor == c.minor && v.major == c.major) (by simp)
    rw [← List.filter_filter] at hboth
    simpa [and_comm] using hboth

theorem tellable_of_mem_around {c v : Version} {published : List String} (hc : Tellable c)
    (hv : v ∈ around c published) :
    Tellable v := by
  rcases hv with rfl | ⟨text, -, hv⟩
  · exact hc
  · exact tellable_of_ofText? hv

theorem of?_eq_none_iff {current : String} {published : List String} :
    of? current published = none ↔ ofText? current = none := by
  rw [of?]
  cases ofText? current <;> simp

private theorem of?_eq_of_perm (current : String) {published published' : List String} (h : published.Perm published') :
    of? current published = of? current published' := by
  have hread := h.filterMap ofText?
  have hmajor (c : Version) := hread.filter (·.major == c.major)
  have hminor (c : Version) := (hmajor c).filter (·.minor == c.minor)
  simp only [of?, foldl_newest_eq_of_perm hread, foldl_newest_eq_of_perm (hmajor _),
    foldl_newest_eq_of_perm (hminor _)]

/-- There are newest versions around a text just if it is a version. They are the texts of the greatest version of all
that are considered, of those with its major number, and of those with its major and minor number; none of these is
older than one of the narrower kinds, or than the version itself. The order of publication does not matter. -/
theorem newest_versions_exact (current : String) (published : List String) :
    (of? current published = none ↔ ofText? current = none) ∧
      (∀ c, ofText? current = some c → ∃ latest minor patch,
        of? current published = some ⟨latest.text, minor.text, patch.text⟩ ∧
        IsGreatest (around c published) latest ∧
        IsGreatest {v ∈ around c published | v.major = c.major} minor ∧
        IsGreatest {v ∈ around c published | v.major = c.major ∧ v.minor = c.minor} patch ∧
        c ≤ patch ∧ patch ≤ minor ∧ minor ≤ latest) ∧
      ∀ published', published.Perm published' → of? current published' = of? current published := by
  refine ⟨of?_eq_none_iff, fun c hc => ?_, fun published' h => (of?_eq_of_perm current h).symm⟩
  obtain ⟨latest, minor, patch, heq, h⟩ := exists_areNewest hc published
  exact ⟨latest, minor, patch, heq, h.latest, h.minor, h.patch, h.le_patch, h.patch_le_minor, h.minor_le_latest⟩

/-- A partial version with a prefix, and among what is published a pre-release and a text that is no version. -/
theorem newest_versions_exact_of_prefixed :
    let c : Version := ⟨1, 0, 0, [], []⟩
    let published := ["1.0.3", "2.0.0-rc.1", "next", "v1.1", "1.0.1"]
    ofText? "v1.0" = some c ∧ of? "v1.0" published = some ⟨"2.0.0-rc.1", "1.1.0", "1.0.3"⟩ ∧
      (∃ latest minor patch, of? "v1.0" published = some ⟨latest.text, minor.text, patch.text⟩ ∧
        IsGreatest (around c published) latest ∧ c ≤ patch ∧ patch ≤ minor ∧ minor ≤ latest) ∧
      published.Perm published.reverse ∧ of? "v1.0" published.reverse = of? "v1.0" published := by
  intro c published
  have hc : ofText? "v1.0" = some c := by decide +kernel
  obtain ⟨-, hnewest, hperm⟩ := newest_versions_exact "v1.0" published
  obtain ⟨latest, minor, patch, heq, hlatest, -, -, hbounds⟩ := hnewest c hc
  have hreverse : published.Perm published.reverse := (List.reverse_perm published).symm
  exact ⟨hc, by decide +kernel, ⟨latest, minor, patch, heq, hlatest, hbounds⟩, hreverse, hperm _ hreverse⟩

end NewestVersions

end PipelineLint
