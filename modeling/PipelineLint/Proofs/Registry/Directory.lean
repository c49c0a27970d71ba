import PipelineLint.Registry
import PipelineLint.Proofs.Results
import PipelineLint.Proofs.Version.Resolve
import PipelineLint.Proofs.Files

/-! # What a registry in a directory reads

A registry in a directory lists the directory of an owner, and reads the file of the version that it takes. Its answers
depend on nothing else (`fetch_congr`). All of this lies in the directory of the registry unless the owner of the orb is
written with two points (`accesses_isBelow`).

A registry that has published an orb takes the very version that is asked for, or else the newest one that the request
selects (`Takes`). Registries in memory answer just if there is such a version; registries in directories also need a
directory that can be listed and a file that can be read (`published_version_taken`).
-/

namespace PipelineLint

namespace Registry

open Text Version

/-- The version is published, and it is the one that is asked for: by its very text, or as the newest selected one. -/
structure Takes (requested : String) (published : List String) (taken : String) : Prop where
  mem : taken ∈ published
  exact : requested ∈ published → taken = requested
  newest : requested ∉ published → resolve? requested published = some taken

variable {name version taken orb : String} {published names : List String} {e : RegistryError} {s : OrbSource}

theorem choose_eq_ok_iff : choose name version published = .ok taken ↔ Takes version published taken := by
  rw [choose]
  by_cases hmem : version ∈ published
  · rw [if_pos (List.contains_iff_mem.mpr hmem), Except.ok.injEq]
    constructor
    · rintro rfl
      exact ⟨hmem, fun _ => rfl, fun hnot => absurd hmem hnot⟩
    · exact fun h => (h.exact hmem).symm
  · rw [if_neg fun h => hmem (List.contains_iff_mem.mp h)]
    cases hresolve : resolve? version published with
    | none =>
      constructor
      · intro h
        cases h
      · intro h
        cases hresolve.symm.trans (h.newest hmem)
    | some found =>
      rw [Except.ok.injEq]
      constructor
      · rintro rfl
        obtain ⟨v, hnewest⟩ := resolve?_eq_some_iff.mp hresolve
        exact ⟨hnewest.mem, fun h => absurd h hmem, fun _ => hresolve⟩
      · exact fun h => Option.some.inj (hresolve.symm.trans (h.newest hmem))

theorem choose_eq_error_iff : choose name version published = .error e ↔
    e = .notFound (orbId name version) ∧ version ∉ published ∧ resolve? version published = none := by
  rw [choose]
  by_cases hmem : version ∈ published
  · rw [if_pos (List.contains_iff_mem.mpr hmem)]
    simp [hmem]
  · rw [if_neg fun h => hmem (List.contains_iff_mem.mp h)]
    cases resolve? version published with
    | none => simp [hmem, eq_comm]
    | some found => simp

def versionsOf (orbs : List (String × String × String)) (name : String) : List String :=
  ((orbs.filter (·.1 == name)).map (·.2)).map (·.1)

def sourceOf? (orbs : List (String × String × String)) (name version : String) : Option String :=
  (((orbs.filter (·.1 == name)).map (·.2)).find? (·.1 == version)).map (·.2)

variable {orbs : List (String × String × String)}

theorem exists_sourceOf? (h : version ∈ versionsOf orbs name) :
    ∃ source, sourceOf? orbs name version = some source := by
  obtain ⟨entry, hentry, rfl⟩ := List.mem_map.mp h
  rw [← Option.isSome_iff_exists, sourceOf?, Option.isSome_map, List.find?_isSome]
  exact ⟨entry, hentry, beq_self_eq_true _⟩

theorem fetch_ofOrbs (orbs : List (String × String × String)) (name version : String) :
    (ofOrbs orbs).fetch name version = (choose name version (versionsOf orbs name)).bind fun chosen =>
      match sourceOf? orbs name chosen with
      | none => .error (.notFound (orbId name version))
      | some source => .ok ⟨orbId name chosen, chosen, source, versionsOf orbs name⟩ := by
  refine bind_congr fun chosen => ?_
  rw [sourceOf?]
  cases ((orbs.filter (·.1 == name)).map (·.2)).find? (·.1 == chosen) <;> rfl

theorem fetch_ofOrbs_eq_ok_iff : (ofOrbs orbs).fetch name version = .ok s ↔
    Takes version (versionsOf orbs name) s.version ∧ s.id = orbId name s.version ∧ s.versions = versionsOf orbs name ∧
      sourceOf? orbs name s.version = some s.source := by
  rw [fetch_ofOrbs]
  cases hchoose : choose name version (versionsOf orbs name) with
  | error e =>
    constructor
    · intro h
      cases h
    · rintro ⟨htakes, -⟩
      cases hchoose.symm.trans (choose_eq_ok_iff.mpr htakes)
  | ok chosen =>
    have htakes := choose_eq_ok_iff.mp hchoose
    obtain ⟨source, hsource⟩ := exists_sourceOf? htakes.mem
    rw [Except.bind, hsource]
    dsimp only
    rw [Except.ok.injEq]
    constructor
    · rintro rfl
      exact ⟨htakes, rfl, rfl, hsource⟩
    · rintro ⟨htaken, hid, hversions, hcontent⟩
      have hsame : choose name version (versionsOf orbs name) = .ok s.version := choose_eq_ok_iff.mpr htaken
      obtain rfl : chosen = s.version := Except.ok.inj (hchoose.symm.trans hsame)
      obtain rfl : source = s.source := Option.some.inj (hsource.symm.trans hcontent)
      rw [← hid, ← hversions]

theorem fetch_ofOrbs_eq_error_iff : (ofOrbs orbs).fetch name version = .error e ↔
    e = .notFound (orbId name version) ∧ version ∉ versionsOf orbs name ∧
      resolve? version (versionsOf orbs name) = none := by
  rw [← choose_eq_error_iff, fetch_ofOrbs]
  cases hchoose : choose name version (versionsOf orbs name) with
  | error e' => simp [Except.bind]
  | ok chosen =>
    obtain ⟨source, hsource⟩ := exists_sourceOf? (choose_eq_ok_iff.mp hchoose).mem
    simp [Except.bind, hsource]

def fileName (orb version : String) : String := orbId orb version ++ ".yml"

/-- The directory with the versions of an orb, and the name of the orb in it. -/
def homeOf? (directory name : String) : Option (String × String) :=
  (cut? ['/'] name.toList).map fun (owner, orb) => (Path.child directory (String.ofList owner), String.ofList orb)

/-- The published versions of an orb in a directory. There are none where nothing lies. -/
def publishedIn (files : Files) (home orb : String) : Except RegistryError (List String) :=
  match files.list home with
  | .ok names => .ok (versionsIn orb names)
  | .error .notFound => .ok []
  | .error e => .error (.unreadable home e.message)

variable {files : Files} {directory home : String}

theorem mem_versionsIn_iff : version ∈ versionsIn orb names ↔ fileName orb version ∈ names := by
  have hread (name : String) : ((dropPrefix? (orb.toList ++ ['@']) name.toList).bind fun rest =>
      (dropPrefix? ".yml".toList.reverse rest.reverse).bind fun version => some (String.ofList version.reverse)) =
        some version ↔ name = fileName orb version := by
    simp only [Option.bind_eq_some_iff, dropPrefix?_eq_some_iff, Option.some.injEq]
    constructor
    · rintro ⟨rest, hname, word, hrest, rfl⟩
      obtain rfl : rest = word.reverse ++ ".yml".toList := by
        rw [← List.reverse_inj, hrest, List.reverse_append, List.reverse_reverse]
      rw [← String.toList_inj, hname]
      simp [fileName, orbId]
    · rintro rfl
      refine ⟨version.toList ++ ".yml".toList, by simp [fileName, orbId], version.toList.reverse, by simp, by simp⟩
  rw [versionsIn, List.mem_mergeSort, List.mem_filterMap]
  constructor
  · rintro ⟨name, hname, hversion⟩
    exact (hread name).mp hversion ▸ hname
  · exact fun h => ⟨_, h, (hread _).mpr rfl⟩

theorem fetch_ofDirectory (files : Files) (directory name version : String) :
    (ofDirectory files directory).fetch name version = match homeOf? directory name with
      | none => .error (.notFound (orbId name version))
      | some (home, orb) => (publishedIn files home orb).bind fun published =>
          (choose name version published).bind fun chosen =>
            match files.read (Path.child home (fileName orb chosen)) with
            | .ok source => .ok ⟨orbId name chosen, chosen, source, published⟩
            | .error e => .error (.unreadable (Path.child home (fileName orb chosen)) e.message) := by
  rw [homeOf?]
  dsimp only [ofDirectory]
  cases cut? ['/'] name.toList with
  | none => rfl
  | some parts =>
    obtain ⟨owner, orb⟩ := parts
    dsimp only [Option.map_some, publishedIn]
    cases files.list (Path.child directory (String.ofList owner)) with
    | ok names => rfl
    | error e => cases e <;> rfl

theorem fetch_ofDirectory_eq_ok_iff : (ofDirectory files directory).fetch name version = .ok s ↔
    ∃ home orb, homeOf? directory name = some (home, orb) ∧ publishedIn files home orb = .ok s.versions ∧
      Takes version s.versions s.version ∧ s.id = orbId name s.version ∧
      files.read (Path.child home (fileName orb s.version)) = .ok s.source := by
  rw [fetch_ofDirectory]
  cases hhome : homeOf? directory name with
  | none => simp
  | some place =>
    obtain ⟨home, orb⟩ := place
    constructor
    · intro h
      obtain ⟨published, hpublished, h⟩ := exists_of_bind_eq_ok h
      obtain ⟨chosen, hchoose, h⟩ := exists_of_bind_eq_ok h
      split at h
      · next source hsource =>
        obtain rfl := Except.ok.inj h
        exact ⟨home, orb, rfl, hpublished, choose_eq_ok_iff.mp hchoose, rfl, hsource⟩
      · cases h
    · rintro ⟨_, _, hplace, hpublished, htakes, hid, hsource⟩
      obtain ⟨rfl, rfl⟩ := Prod.mk.inj (Option.some.inj hplace)
      dsimp only
      rw [hpublished, Except.bind, choose_eq_ok_iff.mpr htakes]
      dsimp only [Except.bind]
      rw [hsource, ← hid]

/-- A request finds something just if a published text is selected; it finds the newest of those, the last of equal
ones; and a broader request finds nothing older. What registries answer with is the version that is taken so from what
they have published, under the name that was asked for: in memory whenever there is such a version, and in a directory
whenever the file of this version can be read, too. -/
theorem published_version_taken :
    (∀ requested published, (resolve? requested published).isSome ↔
      ∃ text ∈ published, ∃ v, Selects requested text v) ∧
    (∀ requested published text, resolve? requested published = some text ↔
      ∃ v, NewestSelected requested published text v) ∧
    (∀ broad requested published text, Broader broad requested → resolve? requested published = some text →
      ∃ found v w, resolve? broad published = some found ∧ ofText? text = some v ∧ ofText? found = some w ∧ v ≤ w) ∧
    (∀ orbs name version s, (ofOrbs orbs).fetch name version = .ok s ↔
      Takes version (versionsOf orbs name) s.version ∧ s.id = orbId name s.version ∧ s.versions = versionsOf orbs name ∧
        sourceOf? orbs name s.version = some s.source) ∧
    (∀ orbs name version e, (ofOrbs orbs).fetch name version = .error e ↔
      e = .notFound (orbId name version) ∧ version ∉ versionsOf orbs name ∧
        resolve? version (versionsOf orbs name) = none) ∧
    ∀ files directory name version s, (ofDirectory files directory).fetch name version = .ok s ↔
      ∃ home orb, homeOf? directory name = some (home, orb) ∧ publishedIn files home orb = .ok s.versions ∧
        Takes version s.versions s.version ∧ s.id = orbId name s.version ∧
        files.read (Path.child home (fileName orb s.version)) = .ok s.source :=
  ⟨fun _ _ => isSome_resolve?_iff, fun _ _ _ => resolve?_eq_some_iff, fun _ _ _ _ => exists_resolve?_of_broader,
    fun _ _ _ _ => fetch_ofOrbs_eq_ok_iff, fun _ _ _ _ => fetch_ofOrbs_eq_error_iff,
    fun _ _ _ _ _ => fetch_ofDirectory_eq_ok_iff⟩

/-- A request with one number selects a pre-release that one with two numbers does not; of two texts of one version the
later one is found. -/
theorem published_version_taken_of_partial :
    let published := ["1.0.3", "1.0.0", "v1.0.3", "1.1.0-rc.1", "next"]
    Broader "1" "1.0" ∧ resolve? "1.0" published = some "v1.0.3" ∧ resolve? "1" published = some "1.1.0-rc.1" ∧
      (∃ v, NewestSelected "1.0" published "v1.0.3" v) ∧
      ∃ found v w, resolve? "1" published = some found ∧ ofText? "v1.0.3" = some v ∧ ofText? found = some w ∧ v ≤ w := by
  intro published
  have hbroad : Broader "1" "1.0" := .inl (by decide +kernel)
  have hfound : resolve? "1.0" published = some "v1.0.3" := by decide +kernel
  obtain ⟨-, hnewest, hbroader, -⟩ := published_version_taken
  exact ⟨hbroad, hfound, by decide +kernel, (hnewest _ _ _).mp hfound, hbroader _ _ _ _ hbroad hfound⟩

end Registry

namespace Registry

open Text PipelineLint.Path

/-- What is asked of the files. -/
inductive Access where
  | list (path : String)
  | read (path : String)
  deriving DecidableEq, Repr

namespace Access

def path : Access → String
  | list path => path
  | read path => path

@[simp]
theorem path_list (path : String) : (list path).path = path := rfl

/-- Two states of the files answer the same. -/
def SameAnswer (files files' : Files) : Access → Prop
  | list path => files.list path = files'.list path
  | read path => files.read path = files'.read path

end Access

/-- What is asked of the files for an orb, in order. -/
def accesses (files : Files) (directory name version : String) : List Access :=
  match homeOf? directory name with
  | none => []
  | some (home, orb) => .list home :: match (publishedIn files home orb).bind (choose name version) with
    | .ok chosen => [.read (child home (fileName orb chosen))]
    | .error _ => []

variable {files files' : Files} {directory name version home orb chosen : String} {published : List String} {a : Access}
  {s : OrbSource}

theorem homeOf?_eq_some_iff : homeOf? directory name = some (home, orb) ↔
    ∃ owner : String, '/' ∉ owner.toList ∧ name.toList = owner.toList ++ '/' :: orb.toList ∧
      home = child directory owner := by
  rw [homeOf?, Option.map_eq_some_iff]
  constructor
  · rintro ⟨⟨owner, rest⟩, hcut, heq⟩
    obtain ⟨rfl, rfl⟩ := Prod.mk.inj heq
    obtain ⟨hname, hfree⟩ := cut?_singleton_eq_some_iff.mp hcut
    exact ⟨String.ofList owner, by simpa using hfree, by simpa using hname, rfl⟩
  · rintro ⟨owner, hfree, hname, rfl⟩
    refine ⟨(owner.toList, orb.toList), cut?_singleton_eq_some_iff.mpr ⟨hname, hfree⟩, ?_⟩
    simp

theorem mem_accesses_iff : a ∈ accesses files directory name version ↔
    ∃ home orb, homeOf? directory name = some (home, orb) ∧ (a = .list home ∨
      ∃ published chosen, publishedIn files home orb = .ok published ∧ choose name version published = .ok chosen ∧
        a = .read (child home (fileName orb chosen))) := by
  rw [accesses]
  cases homeOf? directory name with
  | none => simp
  | some place =>
    obtain ⟨home, orb⟩ := place
    cases hpublished : publishedIn files home orb with
    | error e => simp [Except.bind, hpublished]
    | ok published => cases hchoose : choose name version published <;> simp [Except.bind, hpublished, hchoose]

/-- The answer is made of the answers to what is asked of the files. -/
theorem fetch_congr (h : ∀ a ∈ accesses files directory name version, a.SameAnswer files files') :
    (ofDirectory files directory).fetch name version = (ofDirectory files' directory).fetch name version := by
  simp only [mem_accesses_iff] at h
  rw [fetch_ofDirectory, fetch_ofDirectory]
  cases hhome : homeOf? directory name with
  | none => rfl
  | some place =>
    obtain ⟨home, orb⟩ := place
    dsimp only
    have hlist : files.list home = files'.list home := h _ ⟨home, orb, hhome, .inl rfl⟩
    have hsame : publishedIn files' home orb = publishedIn files home orb := by rw [publishedIn, publishedIn, hlist]
    rw [hsame]
    cases hpublished : publishedIn files home orb with
    | error e => rfl
    | ok published =>
      cases hchoose : choose name version published with
      | error e => simp only [Except.bind, hchoose]
      | ok chosen =>
        have hread : files.read (child home (fileName orb chosen)) = files'.read (child home (fileName orb chosen)) :=
          h _ ⟨home, orb, hhome, .inr ⟨published, chosen, hpublished, hchoose, rfl⟩⟩
        simp only [Except.bind, hchoose, hread]

theorem fileName_ne {other : String} (h : ¬ ".yml".toList <:+ other.toList) : fileName orb chosen ≠ other := by
  rintro rfl
  exact h ⟨(orbId orb chosen).toList, by simp [fileName]⟩

private theorem goal_child_fileName (h : '/' ∉ (fileName orb chosen).toList) :
    goal (ofText (child home (fileName orb chosen))) = goal (ofText home) ++ [fileName orb chosen] := by
  refine goal_child_of_isName h ?_ (fileName_ne (by decide))
  have hempty : fileName orb chosen ≠ "" := fileName_ne (by decide)
  have hpoint : fileName orb chosen ≠ "." := fileName_ne (by decide)
  simp [isName, hempty, hpoint]

theorem slash_notMem_of_publishedIn (hfiles : files.WellNamed) (h : publishedIn files home orb = .ok published)
    (hmem : chosen ∈ published) : '/' ∉ (fileName orb chosen).toList := by
  rw [publishedIn] at h
  split at h
  · next names hlist =>
    obtain rfl := Except.ok.inj h
    exact Files.slash_notMem_of_list hfiles hlist _ (mem_versionsIn_iff.mp hmem)
  · obtain rfl := Except.ok.inj h
    exact absurd hmem List.not_mem_nil
  · cases h

private theorem isBelow_home (h : homeOf? directory name = some (home, orb)) (hup : ¬ "../".toList <+: name.toList) :
    IsBelow directory home := by
  obtain ⟨owner, hfree, hname, rfl⟩ := homeOf?_eq_some_iff.mp h
  refine isBelow_child hfree ?_
  rintro rfl
  exact hup ⟨orb.toList, by simp [hname]⟩

private theorem homeOf?_of_up (directory : String) (h : "../".toList <+: name.toList) :
    ∃ orb, homeOf? directory name = some (child directory "..", orb) := by
  obtain ⟨orb, horb⟩ := h
  exact ⟨String.ofList orb, homeOf?_eq_some_iff.mpr ⟨"..", by decide, by simp [← horb], rfl⟩⟩

private theorem isBelow_of_mem_accesses (hfiles : files.WellNamed) (ha : a ∈ accesses files directory name version)
    (hhome : ∀ home orb, homeOf? directory name = some (home, orb) → IsBelow directory home) :
    IsBelow directory a.path := by
  obtain ⟨home, orb, hplace, rfl | ⟨published, chosen, hpublished, hchoose, rfl⟩⟩ := mem_accesses_iff.mp ha
  · exact hhome home orb hplace
  · have hfree := slash_notMem_of_publishedIn hfiles hpublished (choose_eq_ok_iff.mp hchoose).mem
    exact (hhome home orb hplace).trans (isBelow_child hfree (fileName_ne (by decide)))

/-- All that is asked lies in the directory of the registry, unless the name of the orb starts with two points and a
slash: then it does just if the directory is the root. The answer does not depend on anything else, and the source in it
is the content of a file that was asked for, which lies at the goal of its path. -/
theorem accesses_isBelow (files : Files) (directory name version : String) (hfiles : files.WellNamed) :
    ((∀ a ∈ accesses files directory name version, IsBelow directory a.path) ↔
      ("../".toList <+: name.toList → goal (ofText directory) = ["/"])) ∧
    (∀ files', (∀ a ∈ accesses files directory name version, a.SameAnswer files files') →
      (ofDirectory files directory).fetch name version = (ofDirectory files' directory).fetch name version) ∧
    ∀ s, (ofDirectory files directory).fetch name version = .ok s →
      ∃ path file, .read path ∈ accesses files directory name version ∧ files.at? (goal (ofText path)) = some file ∧
        file.content = s.source := by
  refine ⟨⟨?_, ?_⟩, fun _ => fetch_congr, ?_⟩
  · intro h hup
    obtain ⟨orb, hhome⟩ := homeOf?_of_up directory hup
    have hasked : Access.list (child directory "..") ∈ accesses files directory name version :=
      mem_accesses_iff.mpr ⟨_, orb, hhome, .inl rfl⟩
    have hbelow := h _ hasked
    rw [Access.path_list] at hbelow
    exact isBelow_child_up_iff.mp hbelow
  · intro h a ha
    refine isBelow_of_mem_accesses hfiles ha fun home orb hhome => ?_
    by_cases hup : "../".toList <+: name.toList
    · obtain ⟨orb', hhome'⟩ := homeOf?_of_up directory hup
      have hsame : (home, orb) = (child directory "..", orb') := Option.some.inj (hhome.symm.trans hhome')
      rw [(Prod.mk.inj hsame).1]
      exact isBelow_child_up_iff.mpr (h hup)
    · exact isBelow_home hhome hup
  · intro s hs
    obtain ⟨home, orb, hhome, hpublished, htakes, -, hread⟩ := fetch_ofDirectory_eq_ok_iff.mp hs
    have hfree := slash_notMem_of_publishedIn hfiles hpublished htakes.mem
    have hasked : Access.read (child home (fileName orb s.version)) ∈ accesses files directory name version :=
      mem_accesses_iff.mpr ⟨home, orb, hhome, .inr ⟨_, _, hpublished, choose_eq_ok_iff.mpr htakes, rfl⟩⟩
    rcases Files.at?_goal_of_read hread with ⟨file, hat, hcontent⟩ | hnull
    · exact ⟨_, file, hasked, hat, hcontent⟩
    · have hlast := congrArg List.getLast? ((goal_child_fileName hfree).symm.trans hnull)
      rw [List.getLast?_concat] at hlast
      exact absurd (Option.some.inj hlast) (fileName_ne (by decide))

def neighbours : Files :=
  Files.ofList [("orbs/acme/node@1.0.0.yml", { content := "" }), ("secret@1.0.0.yml", { content := "jobs: {}" })]

theorem accesses_isBelow_of_neighbours : neighbours.WellNamed ∧
    (ofDirectory neighbours "orbs").fetch "acme/node" "1" = .ok ⟨"acme/node@1.0.0", "1.0.0", "", ["1.0.0"]⟩ ∧
    (∀ a ∈ accesses neighbours "orbs" "acme/node" "1", IsBelow "orbs" a.path) ∧
    ¬ ∀ a ∈ accesses neighbours "orbs" "../secret" "1", IsBelow "orbs" a.path := by
  have hfiles : neighbours.WellNamed := Files.wellNamed_ofList _
  have hgoal : goal (ofText "orbs") ≠ ["/"] := by decide
  refine ⟨hfiles, by decide +kernel, (accesses_isBelow _ _ _ _ hfiles).1.mpr ?_, ?_⟩
  · exact fun hup => absurd hup (by decide)
  · exact fun h => hgoal ((accesses_isBelow _ _ _ _ hfiles).1.mp h (by decide))

/-- An orb whose owner is two points is read from outside of the directory. -/
theorem fetch_outside :
    accesses neighbours "orbs" "../secret" "1.0.0" = [.list "orbs/..", .read "orbs/../secret@1.0.0.yml"] ∧
    goal (ofText "orbs") = ["orbs"] ∧ goal (ofText "orbs/..") = [] ∧
    goal (ofText "orbs/../secret@1.0.0.yml") = ["secret@1.0.0.yml"] ∧
    ¬ IsBelow "orbs" "orbs/.." ∧ ¬ IsBelow "orbs" "orbs/../secret@1.0.0.yml" ∧
    (ofDirectory neighbours "orbs").fetch "../secret" "1.0.0" =
      .ok ⟨"../secret@1.0.0", "1.0.0", "jobs: {}", ["1.0.0"]⟩ := by
  have hdirectory : goal (ofText "orbs") = ["orbs"] := by decide
  have hhome : goal (ofText "orbs/..") = [] := by decide
  have hfile : goal (ofText "orbs/../secret@1.0.0.yml") = ["secret@1.0.0.yml"] := by decide
  refine ⟨by decide +kernel, hdirectory, hhome, hfile, ?_, ?_, by decide +kernel⟩
  · rintro ⟨rest, hrest, -⟩
    rw [hdirectory, hhome] at hrest
    cases hrest
  · rintro ⟨rest, hrest, -⟩
    rw [hdirectory, hfile] at hrest
    exact absurd (List.cons.inj hrest).1 (by decide)

end Registry

end PipelineLint
