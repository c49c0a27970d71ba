import PipelineLint.Check.Orbs
import PipelineLint.Proofs.Version.Newest

/-! # Orbs that are behind

Whether an orb is behind is decided by texts: it is, unless its version is written just as each of the newest versions
is told. What the quick fixes offer is decided by versions: of the newest ones those after the version of the orb, each
of them once. A version that is not written as it is told, such as `1.0`, is found to be behind even where nothing
newer is published, and then there is nothing to offer (`orbUpdate_exact`).
-/

namespace PipelineLint.Check

open Version NewestVersions

variable {current : String} {published : List String} {c : Version} {newest : NewestVersions}

theorem behind?_eq_none_iff : behind? current newest = none ↔ newest = ⟨current, current, current⟩ := by
  constructor
  · intro h
    rw [behind?] at h
    repeat' split at h
    all_goals try cases h
    next hpatch hminor hlatest =>
    rw [bne_iff_ne, not_not] at hpatch hminor hlatest
    cases newest
    exact congr (congrArg₂ NewestVersions.mk hlatest hminor) hpatch
  · rintro rfl
    have hmajor : ¬(majorOf? current == some 0 && (majorOf? current).any (· != 0)) = true := by
      cases majorOf? current <;> simp
    simp only [behind?, if_neg hmajor, bne_self_eq_false, Bool.false_eq_true, if_false]

/-- Nothing is behind just if the version itself is the newest one, and it is written as it is told. -/
theorem behind?_eq_none_iff_of_areNewest {latest minor patch : Version} (hc : ofText? current = some c)
    (h : AreNewest c published latest minor patch) :
    behind? current ⟨latest.text, minor.text, patch.text⟩ = none ↔ latest = c ∧ current = c.text := by
  have htell := tellable_of_mem_around (tellable_of_ofText? hc) h.latest.1
  rw [behind?_eq_none_iff, NewestVersions.mk.injEq]
  constructor
  · rintro ⟨hlatest, -, -⟩
    have hread : some latest = some c := by rw [← ofText?_text htell, hlatest, hc]
    obtain rfl := Option.some.inj hread
    exact ⟨rfl, hlatest.symm⟩
  · rintro ⟨rfl, rfl⟩
    have hminor : minor = latest := le_antisymm h.minor_le_latest (h.le_patch.trans h.patch_le_minor)
    have hpatch : patch = latest := le_antisymm (h.patch_le_minor.trans h.minor_le_latest) h.le_patch
    rw [hminor, hpatch]
    exact ⟨rfl, rfl, rfl⟩

/-- The version itself is the newest one just if nothing newer is published. -/
theorem lt_latest_iff {latest : Version} (hc : ofText? current = some c) (h : IsGreatest (around c published) latest) :
    c < latest ↔ ∃ text ∈ published, isNewer current text = true := by
  constructor
  · intro hlt
    obtain rfl | ⟨text, htext, hread⟩ := h.1
    · exact absurd hlt (lt_irrefl _)
    · exact ⟨text, htext, isNewer_iff.mpr ⟨c, latest, hc, hread, hlt⟩⟩
  · rintro ⟨text, htext, hnewer⟩
    obtain ⟨v, w, hv, hw, hlt⟩ := isNewer_iff.mp hnewer
    obtain rfl : c = v := Option.some.inj (hc.symm.trans hv)
    exact hlt.trans_le (h.2 (.inr ⟨text, htext, hw⟩))

/-- What the quick fixes of a finding write. -/
def written (d : Diagnostic) : List String := d.actions.flatMap fun action => action.edits.map (·.newText)

/-- Those of the texts that are newer than the current one, each of them once. -/
def offered (current : String) : (seen targets : List String) → List String
  | _, [] => []
  | seen, target :: targets =>
    if isNewer current target && !seen.contains target then target :: offered current (target :: seen) targets
    else offered current seen targets

private theorem written_offerVersions (use : OrbUse) (current : String) (offers : List (String × String))
    (d : Diagnostic) :
    written (offerVersions use current offers d) = written d ++ offered current [] (offers.map (·.2)) := by
  rw [offerVersions]
  generalize ([] : List String) = seen
  induction offers generalizing d seen with
  | nil => simp [offered]
  | cons offer offers ih =>
    obtain ⟨title, target⟩ := offer
    rw [List.foldl_cons, List.map_cons, offered]
    dsimp only
    split
    · rw [ih]
      simp [written, Diagnostic.withAction, Action.replace]
    · exact ih d seen

private theorem offered_sublist (current : String) (seen targets : List String) :
    (offered current seen targets).Sublist targets := by
  induction targets generalizing seen with
  | nil => exact .slnil
  | cons target targets ih =>
    rw [offered]
    split
    · exact (ih _).cons_cons target
    · exact (ih seen).cons target

/-- Of versions in order, those after the current one are offered, and in this order. -/
theorem exists_offered {vs : List Version} (hc : ofText? current = some c) (hsorted : vs.Pairwise (· ≤ ·))
    (htell : ∀ v ∈ vs, Tellable v) (seen : List String) :
    ∃ ws : List Version, offered current seen (vs.map text) = ws.map text ∧ ws.Pairwise (· < ·) ∧
      ∀ w, w ∈ ws ↔ w ∈ vs ∧ c < w ∧ w.text ∉ seen := by
  induction vs generalizing seen with
  | nil => exact ⟨[], rfl, .nil, by simp⟩
  | cons v vs ih =>
    obtain ⟨hv, hsorted⟩ := List.pairwise_cons.mp hsorted
    obtain ⟨htellv, htell⟩ := List.forall_mem_cons.mp htell
    have hcond : (isNewer current v.text && !seen.contains v.text) = true ↔ c < v ∧ v.text ∉ seen := by
      simp [isNewer_iff, hc, ofText?_text htellv]
    rw [List.map_cons, offered]
    split
    · next htake =>
      have ⟨hlt, hseen⟩ := hcond.mp htake
      obtain ⟨ws, heq, hpairwise, hmem⟩ := ih hsorted htell (v.text :: seen)
      refine ⟨v :: ws, by rw [heq, List.map_cons], List.pairwise_cons.mpr ⟨fun w hw => ?_, hpairwise⟩, fun w => ?_⟩
      · obtain ⟨hw, -, hnew⟩ := (hmem w).mp hw
        refine lt_of_le_of_ne (hv w hw) fun heq => hnew ?_
        rw [heq]
        exact List.mem_cons_self
      · have htext (hw : w ∈ vs) : w.text = v.text ↔ w = v := text_inj (htell w hw) htellv
        rw [List.mem_cons, hmem, List.mem_cons, List.mem_cons, not_or]
        grind
    · next hskip =>
      obtain ⟨ws, heq, hpairwise, hmem⟩ := ih hsorted htell seen
      refine ⟨ws, heq, hpairwise, fun w => ?_⟩
      rw [hmem, List.mem_cons]
      grind

private theorem getLast?_of_isGreatest {vs : List Version} {v : Version} (hsorted : vs.Pairwise (· < ·))
    (h : IsGreatest {w | w ∈ vs} v) : vs.getLast? = some v := by
  obtain ⟨before, after, rfl⟩ := List.append_of_mem h.1
  cases after with
  | nil => simp
  | cons w after =>
    have hlt : v < w := by
      have htail := (List.pairwise_append.mp hsorted).2.1
      exact (List.pairwise_cons.mp htail).1 w List.mem_cons_self
    exact absurd hlt (not_lt.mpr (h.2 (by simp)))

/-- What is offered of the newest versions goes up to the newest of all, if anything newer is published. -/
theorem offered_newest {latest minor patch : Version} (hc : ofText? current = some c)
    (h : AreNewest c published latest minor patch) :
    ∃ ws : List Version, offered current [] [patch.text, minor.text, latest.text] = ws.map text ∧
      ws.Pairwise (· < ·) ∧ (∀ w ∈ ws, c < w ∧ Tellable w) ∧ (c < latest → ws.getLast? = some latest) ∧
      (ws ≠ [] → c < latest) := by
  have htell : ∀ v ∈ around c published, Tellable v := fun v => tellable_of_mem_around (tellable_of_ofText? hc)
  have hsorted : [patch, minor, latest].Pairwise (· ≤ ·) := by
    simp [h.patch_le_minor, h.minor_le_latest, h.patch_le_minor.trans h.minor_le_latest]
  have htells : ∀ v ∈ [patch, minor, latest], Tellable v := by
    simp [htell _ h.patch.1.1, htell _ h.minor.1.1, htell _ h.latest.1]
  obtain ⟨ws, heq, hpairwise, hmem⟩ := exists_offered hc hsorted htells []
  have hle : ∀ w ∈ ws, w ≤ latest := by
    intro w hw
    have hw := ((hmem w).mp hw).1
    simp only [List.mem_cons, List.not_mem_nil, or_false] at hw
    rcases hw with rfl | rfl | rfl
    · exact h.patch_le_minor.trans h.minor_le_latest
    · exact h.minor_le_latest
    · exact le_rfl
  refine ⟨ws, heq, hpairwise, fun w hw => ⟨((hmem w).mp hw).2.1, htells w ((hmem w).mp hw).1⟩, fun hlt => ?_, fun hne => ?_⟩
  · have hlatest : latest ∈ ws := (hmem latest).mpr ⟨by simp, hlt, List.not_mem_nil⟩
    exact getLast?_of_isGreatest hpairwise ⟨hlatest, hle⟩
  · obtain ⟨w, hw⟩ := List.exists_mem_of_ne_nil ws hne
    exact ((hmem w).mp hw).2.1.trans_le (hle w hw)

theorem orbUpdate_eq_nil_iff (use : OrbUse) : orbUpdate use current newest = [] ↔ behind? current newest = none := by
  unfold orbUpdate
  cases behind? current newest <;> simp

private theorem written_of_mem_orbUpdate {use : OrbUse} {d : Diagnostic} (hd : d ∈ orbUpdate use current newest) :
    written d = offered current [] [newest.latestPatch, newest.latestMinor, newest.latest] := by
  unfold orbUpdate at hd
  cases hbehind : behind? current newest with
  | none => simp [hbehind] at hd
  | some found =>
    obtain ⟨severity, message⟩ := found
    simp only [hbehind, List.mem_singleton] at hd
    rw [hd, written_offerVersions]
    rfl

/-- For every orb whose version can be read, with the newest versions around it: it is found to be behind just if
something newer is published or its version is not written as it is told. What the finding offers is some of the
newest patch, the newest minor version and the newest version, in this order; all of it is newer than the orb's version,
each newer than those before. Something is offered just if something newer is published, and then the last of it is the
newest version. -/
theorem orbUpdate_exact (use : OrbUse) (current : String) (published : List String) (c : Version)
    (newest : NewestVersions) (hc : ofText? current = some c) (hnewest : NewestVersions.of? current published = some newest) :
    (orbUpdate use current newest).length ≤ 1 ∧
      (orbUpdate use current newest ≠ [] ↔
        (∃ text ∈ published, isNewer current text = true) ∨ current ≠ c.text) ∧
      ∀ d ∈ orbUpdate use current newest,
        (written d).Sublist [newest.latestPatch, newest.latestMinor, newest.latest] ∧
        (∀ target ∈ written d, isNewer current target = true) ∧
        (written d).Pairwise (fun target next => isNewer target next = true) ∧
        (written d ≠ [] ↔ ∃ text ∈ published, isNewer current text = true) ∧
        (written d ≠ [] → ∃ latest, IsGreatest (around c published) latest ∧ (written d).getLast? = some latest.text) := by
  obtain ⟨latest, minor, patch, heq, h⟩ := exists_areNewest hc published
  obtain rfl := Option.some.inj (heq.symm.trans hnewest)
  have hlatest : c ≤ latest := h.le_patch.trans (h.patch_le_minor.trans h.minor_le_latest)
  refine ⟨?_, ?_, fun d hd => ?_⟩
  · unfold orbUpdate
    split <;> simp
  · rw [ne_eq, orbUpdate_eq_nil_iff, behind?_eq_none_iff_of_areNewest hc h, not_and_or, ← lt_latest_iff hc h.latest,
      lt_iff_le_and_ne]
    simp [hlatest, eq_comm]
  obtain ⟨ws, hws, hpairwise, hnewer, hlast, hne⟩ := offered_newest hc h
  have hwritten := written_of_mem_orbUpdate hd
  have hread : ∀ w ∈ ws, ofText? w.text = some w := fun w hw => ofText?_text (hnewer w hw).2
  have hnonempty : written d ≠ [] ↔ c < latest := by
    rw [hwritten, hws, ne_eq, List.map_eq_nil_iff]
    refine ⟨hne, ?_⟩
    rintro hlt rfl
    cases hlast hlt
  refine ⟨hwritten ▸ offered_sublist current [] _, fun target htarget => ?_, ?_, ?_, fun hsome => ?_⟩
  · rw [hwritten, hws] at htarget
    obtain ⟨w, hw, rfl⟩ := List.mem_map.mp htarget
    exact isNewer_iff.mpr ⟨c, w, hc, hread w hw, (hnewer w hw).1⟩
  · rw [hwritten, hws, List.pairwise_map]
    refine hpairwise.imp_of_mem fun hv hw hlt => ?_
    exact isNewer_iff.mpr ⟨_, _, hread _ hv, hread _ hw, hlt⟩
  · rw [hnonempty, lt_latest_iff hc h.latest]
  · refine ⟨latest, h.latest, ?_⟩
    rw [hwritten, hws, List.getLast?_map, hlast (hnonempty.mp hsome)]
    rfl

/-- Newer patches, minor and major versions are published. -/
theorem orbUpdate_exact_of_skippedVersions :
    let published := ["1.0.0", "1.0.3", "1.1.0", "1.2.4", "2.0.0", "2.1.1"]
    let newest : NewestVersions := ⟨"2.1.1", "1.2.4", "1.0.3"⟩
    ofText? "1.0.1" = some ⟨1, 0, 1, [], []⟩ ∧ NewestVersions.of? "1.0.1" published = some newest ∧
      ((orbUpdate {} "1.0.1" newest).map written = [["1.0.3", "1.2.4", "2.1.1"]]) ∧
      (orbUpdate {} "1.0.1" newest ≠ [] ↔ (∃ text ∈ published, isNewer "1.0.1" text = true) ∨ "1.0.1" ≠ "1.0.1") ∧
      ∀ d ∈ orbUpdate {} "1.0.1" newest, (written d).Pairwise fun target next => isNewer target next = true := by
  intro published newest
  have hc : ofText? "1.0.1" = some ⟨1, 0, 1, [], []⟩ := by decide +kernel
  have hnewest : NewestVersions.of? "1.0.1" published = some newest := by decide +kernel
  obtain ⟨-, hfound, hoffers⟩ := orbUpdate_exact {} "1.0.1" published _ newest hc hnewest
  exact ⟨hc, hnewest, by decide +kernel, hfound, fun d hd => (hoffers d hd).2.2.1⟩

/-- The only published version, `1.0`, is told as `1.0.0`: it is found to be behind, and nothing is offered. -/
theorem orbUpdate_of_partialVersion :
    ofText? "1.0" = some ⟨1, 0, 0, [], []⟩ ∧
      NewestVersions.of? "1.0" ["1.0"] = some ⟨"1.0.0", "1.0.0", "1.0.0"⟩ ∧
      (∀ text ∈ ["1.0"], isNewer "1.0" text = false) ∧
      (orbUpdate {} "1.0" ⟨"1.0.0", "1.0.0", "1.0.0"⟩).map (·.actions) = [[]] := by
  decide +kernel

end PipelineLint.Check
