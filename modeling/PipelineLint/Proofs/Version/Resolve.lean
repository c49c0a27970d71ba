import PipelineLint.Proofs.Version.Order
import PipelineLint.Proofs.Text.Split
import Mathlib.Data.List.Induction

/-! # The version that a request selects

Of the published texts that a request selects, the one with the greatest version is found, and of equal ones the last
(`resolve?_eq_some_iff`). A request with fewer numbers selects all that a longer one does, so what it finds is no older
(`exists_resolve?_of_broader`).
-/

namespace PipelineLint.Version

open Text

/-- The published text is a version that the request asks for. -/
structure Selects (requested text : String) (v : Version) : Prop where
  read : ofText? text = some v
  asked : requested = "" ∨ requested = volatile ∨ v.selectedBy requested = true

/-- The text is the newest one that is selected, and the last of those as new. -/
def NewestSelected (requested : String) (published : List String) (text : String) (v : Version) : Prop :=
  ∃ before after, published = before ++ text :: after ∧ Selects requested text v ∧
    (∀ other ∈ before, ∀ w, Selects requested other w → w ≤ v) ∧
    ∀ other ∈ after, ∀ w, Selects requested other w → w < v

variable {requested text other : String} {published : List String} {v w : Version}

theorem Selects.unique (h : Selects requested text v) (h' : Selects requested text w) : v = w :=
  Option.some.inj (h.read.symm.trans h'.read)

namespace NewestSelected

theorem mem (h : NewestSelected requested published text v) : text ∈ published := by
  obtain ⟨before, after, rfl, -⟩ := h
  simp

theorem selects (h : NewestSelected requested published text v) : Selects requested text v := by
  obtain ⟨-, -, -, hselects, -⟩ := h
  exact hselects

/-- No text that is selected is newer. -/
theorem le (h : NewestSelected requested published text v) (hother : other ∈ published)
    (hw : Selects requested other w) :
    w ≤ v := by
  obtain ⟨before, after, rfl, hselects, hbefore, hafter⟩ := h
  rcases List.mem_append.mp hother with hother | hother
  · exact hbefore other hother w hw
  · rcases List.mem_cons.mp hother with rfl | hother
    · exact (hw.unique hselects).le
    · exact (hafter other hother w hw).le

private theorem unique (h : NewestSelected requested published text v)
    (h' : NewestSelected requested published other w) :
    text = other := by
  have hv := h.selects
  have hw := h'.selects
  obtain ⟨before, after, hsplit, -, hbefore, hafter⟩ := h
  obtain ⟨before', after', hsplit', -, hbefore', hafter'⟩ := h'
  rcases List.append_eq_append_iff.mp (hsplit.symm.trans hsplit') with ⟨between, hleft, hright⟩ | ⟨between, hleft, hright⟩
  all_goals
    cases between with
    | nil => simp_all
    | cons first between => ?_
  · obtain ⟨rfl, rfl⟩ := List.cons.inj hright
    exact absurd (hafter other (by simp) w hw) (not_lt.mpr (hbefore' text (by simp [hleft]) v hv))
  · obtain ⟨rfl, rfl⟩ := List.cons.inj hright
    exact absurd (hafter' text (by simp) v hv) (not_lt.mpr (hbefore other (by simp [hleft]) w hw))

/-- A text after it that is not as new leaves it the newest one. -/
theorem append (h : NewestSelected requested published text v) (hlast : ∀ w, Selects requested other w → w < v) :
    NewestSelected requested (published ++ [other]) text v := by
  obtain ⟨before, after, rfl, hselects, hbefore, hafter⟩ := h
  refine ⟨before, after ++ [other], by simp, hselects, hbefore, ?_⟩
  intro text htext w hw
  rcases List.mem_append.mp htext with htext | htext
  · exact hafter text htext w hw
  · exact hlast w (List.mem_singleton.mp htext ▸ hw)

/-- A text after all others is the newest one if none is newer. -/
theorem last (h : Selects requested text v) (hall : ∀ other ∈ published, ∀ w, Selects requested other w → w ≤ v) :
    NewestSelected requested (published ++ [text]) text v :=
  ⟨published, [], rfl, h, hall, fun _ hother => absurd hother List.not_mem_nil⟩

end NewestSelected

def candidate? (requested text : String) : Option (String × Version) :=
  (ofText? text).bind fun v =>
    if requested.isEmpty || requested == volatile || v.selectedBy requested then some (text, v) else none

/-- The newer of two entries, the second of equal ones. -/
def laterNewest (best : Option (String × Version)) (entry : String × Version) : Option (String × Version) :=
  match best with
  | none => some entry
  | some found => if found.2.newerThan entry.2 then some found else some entry

/-- The newest candidate, the last of equal ones. -/
def best? (requested : String) (published : List String) : Option (String × Version) :=
  (published.filterMap (candidate? requested)).foldl laterNewest none

theorem resolve?_eq (requested : String) (published : List String) :
    resolve? requested published = (best? requested published).map Prod.fst := rfl

theorem candidate?_eq_some_iff {name : String} :
    candidate? requested text = some (name, v) ↔ name = text ∧ Selects requested text v := by
  simp only [candidate?, Option.bind_eq_some_iff, Option.ite_none_right_eq_some, Option.some.injEq, Prod.mk.injEq,
    Bool.or_eq_true, String.isEmpty_iff, beq_iff_eq, or_assoc]
  constructor
  · rintro ⟨_, hread, hasked, rfl, rfl⟩
    exact ⟨rfl, hread, hasked⟩
  · rintro ⟨rfl, hread, hasked⟩
    exact ⟨v, hread, hasked, rfl, rfl⟩

theorem best?_append_singleton (requested : String) (published : List String) (text : String) :
    best? requested (published ++ [text]) = match candidate? requested text with
      | none => best? requested published
      | some entry => laterNewest (best? requested published) entry := by
  rw [best?, List.filterMap_append, List.foldl_append]
  cases h : candidate? requested text <;> simp [h, best?]

/-- The best candidate is the newest text that is selected; there is none if no text is. -/
theorem best?_spec (requested : String) (published : List String) :
    (∀ text v, best? requested published = some (text, v) → NewestSelected requested published text v) ∧
      (best? requested published = none → ∀ other ∈ published, ∀ w, ¬ Selects requested other w) := by
  induction published using List.reverseRecOn with
  | nil => exact ⟨nofun, fun _ _ hother => absurd hother List.not_mem_nil⟩
  | append_singleton published last ih =>
    obtain ⟨hsome, hnone⟩ := ih
    rw [best?_append_singleton]
    cases hlast : candidate? requested last with
    | none =>
      have hpassed (w : Version) : ¬ Selects requested last w := by
        intro hw
        have hcandidate := candidate?_eq_some_iff.mpr ⟨rfl, hw⟩
        rw [hlast] at hcandidate
        cases hcandidate
      refine ⟨fun text v hbest => (hsome text v hbest).append fun w hw => absurd hw (hpassed w), ?_⟩
      intro hbest other hother w
      rcases List.mem_append.mp hother with hother | hother
      · exact hnone hbest other hother w
      · exact List.mem_singleton.mp hother ▸ hpassed w
    | some entry =>
      obtain ⟨name, u⟩ := entry
      obtain ⟨rfl, hselects⟩ := candidate?_eq_some_iff.mp hlast
      dsimp only at hselects ⊢
      cases hbest : best? requested published with
      | none =>
        refine ⟨?_, nofun⟩
        rintro _ _ ⟨⟩
        exact .last hselects fun other hother w hw => absurd hw (hnone hbest other hother w)
      | some found =>
        have hfound := hsome found.1 found.2 hbest
        rw [laterNewest]
        by_cases hnewer : found.2.newerThan u = true
        · rw [if_pos hnewer]
          refine ⟨?_, nofun⟩
          rintro _ _ ⟨⟩
          exact hfound.append fun w hw => hw.unique hselects ▸ newerThan_iff.mp hnewer
        · rw [if_neg hnewer]
          have hle : found.2 ≤ u := not_lt.mp fun hlt => hnewer (newerThan_iff.mpr hlt)
          refine ⟨?_, nofun⟩
          rintro _ _ ⟨⟩
          exact .last hselects fun other hother w hw => (hfound.le hother hw).trans hle

theorem resolve?_eq_some_iff :
    resolve? requested published = some text ↔ ∃ v, NewestSelected requested published text v := by
  obtain ⟨hsome, hnone⟩ := best?_spec requested published
  rw [resolve?_eq]
  constructor
  · intro h
    obtain ⟨found, hbest, rfl⟩ := Option.map_eq_some_iff.mp h
    exact ⟨found.2, hsome found.1 found.2 hbest⟩
  · rintro ⟨v, h⟩
    cases hbest : best? requested published with
    | none => exact absurd h.selects (hnone hbest text h.mem v)
    | some found =>
      have hsame := (hsome found.1 found.2 hbest).unique h
      rw [Option.map_some, hsame]

theorem isSome_resolve?_iff :
    (resolve? requested published).isSome ↔ ∃ text ∈ published, ∃ v, Selects requested text v := by
  constructor
  · intro h
    obtain ⟨text, htext⟩ := Option.isSome_iff_exists.mp h
    obtain ⟨v, hnewest⟩ := resolve?_eq_some_iff.mp htext
    exact ⟨text, hnewest.mem, v, hnewest.selects⟩
  · rintro ⟨text, htext, v, hv⟩
    rw [resolve?_eq, Option.isSome_map]
    by_contra hbest
    exact (best?_spec requested published).2 (by simpa using hbest) text htext v hv

/-- The parts of a request between its points. -/
def components (requested : String) : List (List Char) := splitAtChar '.' (bare requested.toList)

/-- A request has the parts of another one and is not as long, or it asks for the newest version. -/
def Broader (broad requested : String) : Prop :=
  components broad <+: components requested ∧ components broad ≠ components requested ∨ broad = volatile

/-- A version is selected by parts that are its first numbers; by all three of them only if it is no pre-release. -/
theorem selectedBy_iff : v.selectedBy requested = true ↔
    (components requested).map (unsigned? 64) <+: [some v.major, some v.minor, some v.patch] ∧
      ((components requested).length = 3 → v.pre = []) := by
  rw [selectedBy, ← components]
  generalize components requested = parts
  match parts with
  | [] => simp
  | [major] => simp
  | [major, minor] => simp
  | [major, minor, patch] => simp [and_assoc]
  | _ :: _ :: _ :: _ :: _ => simp

private theorem two_le_length_of_broader {broad : String}
    (h : components broad <+: components requested ∧ components broad ≠ components requested) :
    2 ≤ (components requested).length := by
  obtain ⟨⟨rest, hrest⟩, hne⟩ := h
  have hbroad : 0 < (components broad).length := List.length_pos_iff.mpr (splitAtChar_ne_nil _ _)
  have hrest' : rest ≠ [] := by
    rintro rfl
    exact hne (by rw [← hrest, List.append_nil])
  have hpos := List.length_pos_iff.mpr hrest'
  rw [← hrest, List.length_append]
  omega

/-- A broader request selects all that a request does. -/
theorem Selects.of_broader {broad : String} (hbroad : Broader broad requested) (h : Selects requested text v) :
    Selects broad text v := by
  refine ⟨h.read, ?_⟩
  rcases hbroad with hpart | rfl
  · have hlength := two_le_length_of_broader hpart
    have hselected : v.selectedBy requested = true := by
      rcases h.asked with rfl | rfl | hselected
      · exact absurd hlength (by decide)
      · exact absurd hlength (by decide)
      · exact hselected
    obtain ⟨hnumbers, -⟩ := selectedBy_iff.mp hselected
    refine .inr (.inr (selectedBy_iff.mpr ⟨(hpart.1.map _).trans hnumbers, fun hthree => ?_⟩))
    have hle : (components requested).length ≤ 3 := by simpa using hnumbers.length_le
    exact absurd (hpart.1.eq_of_length_le (hthree ▸ hle)) hpart.2
  · exact .inr (.inl rfl)

/-- What a broader request finds is no older than what a request finds. -/
theorem exists_resolve?_of_broader {broad : String} (hbroad : Broader broad requested)
    (h : resolve? requested published = some text) : ∃ found v w, resolve? broad published = some found ∧
      ofText? text = some v ∧ ofText? found = some w ∧ v ≤ w := by
  obtain ⟨v, hnewest⟩ := resolve?_eq_some_iff.mp h
  have hv := hnewest.selects.of_broader hbroad
  obtain ⟨found, hfound⟩ := Option.isSome_iff_exists.mp (isSome_resolve?_iff.mpr ⟨text, hnewest.mem, v, hv⟩)
  obtain ⟨w, hgreatest⟩ := resolve?_eq_some_iff.mp hfound
  exact ⟨found, v, w, hfound, hv.read, hgreatest.selects.read, hgreatest.le hnewest.mem hv⟩

end PipelineLint.Version
