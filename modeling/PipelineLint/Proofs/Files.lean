import PipelineLint.Files
import PipelineLint.Proofs.Text.Split

/-! # Where paths lead

The goal of a path are the names that are left when two points take back the name before them. What is read at a path is
the file that lies at its goal (`at?_goal_of_read`). A name put after a directory leads right below the directory, with
the exception of two points (`isBelow_child`, `isBelow_child_up_iff`).
-/

namespace PipelineLint

open Text

namespace Path

/-- One name further on a way. Above the root is the root; two points that take nothing back stay. -/
def further (reached : List String) (name : String) : List String :=
  if name = ".." then
    if reached = ["/"] then reached
    else if reached = [] ∨ reached.getLast? = some ".." then reached ++ [".."]
    else reached.dropLast
  else reached ++ [name]

def origin (p : Path) : List String := if p.isAbsolute then ["/"] else []

/-- The names that a path leads to, from the root or from the working directory. -/
def goal (p : Path) : List String := p.names.foldl further p.origin

/-- A path leads to a directory or to something in it. -/
def IsBelow (directory path : String) : Prop :=
  ∃ rest, goal (ofText path) = goal (ofText directory) ++ rest ∧ ".." ∉ rest

variable {directory path name : String} {reached : List String}

theorem further_up_root : further ["/"] ".." = ["/"] := by decide

theorem further_of_ne (h : name ≠ "..") : further reached name = reached ++ [name] := if_neg h

private theorem further_up (hroot : reached ≠ ["/"]) (hne : reached ≠ []) (hup : ".." ∉ reached) :
    further reached ".." = reached.dropLast := by
  have hlast : reached.getLast? ≠ some ".." := fun h => hup (List.mem_of_getLast? h)
  simp [further, hroot, hne, hlast]

theorem IsBelow.trans {middle : String} (h : IsBelow directory middle) (h' : IsBelow middle path) :
    IsBelow directory path := by
  obtain ⟨rest, hmiddle, hrest⟩ := h
  obtain ⟨rest', hpath, hrest'⟩ := h'
  refine ⟨rest ++ rest', ?_, ?_⟩
  · rw [hpath, hmiddle, List.append_assoc]
  · simp [hrest, hrest']

def isName (part : String) : Bool := !(part.isEmpty || part == ".")

def namesIn (cs : List Char) : List String := ((splitAtChar '/' cs).map String.ofList).filter isName

private theorem names_ofText (text : String) : (ofText text).names = namesIn text.toList := rfl

theorem namesIn_append (xs ys : List Char) : namesIn (xs ++ '/' :: ys) = namesIn xs ++ namesIn ys := by
  simp [namesIn, splitAtChar_append]

private theorem namesIn_of_notMem {cs : List Char} (h : '/' ∉ cs) : namesIn cs = [String.ofList cs].filter isName := by
  rw [namesIn, splitAtChar_of_notMem h, List.map_singleton]

/-- The text of a name in a directory, with one slash between the two where there is a directory. -/
theorem toList_child (directory name : String) : (child directory name).toList = name.toList ∧ directory = "" ∨
    ∃ before, (child directory name).toList = before ++ '/' :: name.toList ∧
      (directory.toList = before ∨ directory.toList = before ++ ['/']) ∧ directory ≠ "" := by
  rw [child]
  by_cases hempty : directory = ""
  · subst hempty
    exact .inl ⟨rfl, rfl⟩
  refine .inr ?_
  have hfalse : directory.isEmpty = false := by simpa using hempty
  by_cases hlast : directory.toList.getLast? = some '/'
  · obtain ⟨before, hbefore⟩ := List.getLast?_eq_some_iff.mp hlast
    refine ⟨before, ?_, .inr hbefore, hempty⟩
    rw [hfalse, hlast]
    simp [hbefore]
  · refine ⟨directory.toList, ?_, .inl rfl, hempty⟩
    have hnot : (directory.toList.getLast? == some '/') = false := by simpa using hlast
    rw [hfalse, hnot]
    simp

private theorem names_child (hname : '/' ∉ name.toList) :
    (ofText (child directory name)).names = (ofText directory).names ++ [name].filter isName := by
  have hlast : namesIn name.toList = [name].filter isName := by rw [namesIn_of_notMem hname, String.ofList_toList]
  rw [names_ofText, names_ofText]
  rcases toList_child directory name with ⟨hchild, rfl⟩ | ⟨before, hchild, hdirectory, -⟩
  · rw [hchild, hlast]
    rfl
  · have hnothing : namesIn [] = [] := rfl
    rw [hchild, namesIn_append, hlast]
    rcases hdirectory with hdirectory | hdirectory
    · rw [hdirectory]
    · rw [hdirectory, namesIn_append, hnothing, List.append_nil]

private theorem isAbsolute_child (hname : '/' ∉ name.toList) :
    (ofText (child directory name)).isAbsolute = (ofText directory).isAbsolute := by
  change ((child directory name).toList.head? == some '/') = (directory.toList.head? == some '/')
  rcases toList_child directory name with ⟨hchild, rfl⟩ | ⟨before, hchild, hdirectory, hne⟩
  · rw [hchild]
    have hhead : name.toList.head? ≠ some '/' := fun h => hname (List.mem_of_head? h)
    simpa using hhead
  · have hne' : directory.toList ≠ [] := by simpa using hne
    rw [hchild]
    cases before with
    | nil =>
      rcases hdirectory with hdirectory | hdirectory
      · exact absurd hdirectory hne'
      · rw [hdirectory]
        rfl
    | cons c before =>
      rcases hdirectory with hdirectory | hdirectory <;> simp [hdirectory]

theorem goal_child (hname : '/' ∉ name.toList) :
    goal (ofText (child directory name)) = ([name].filter isName).foldl further (goal (ofText directory)) := by
  have horigin : (ofText (child directory name)).origin = (ofText directory).origin := by
    rw [origin, isAbsolute_child hname, origin]
  rw [goal, names_child hname, List.foldl_append, horigin, goal]

theorem goal_child_of_isName (hname : '/' ∉ name.toList) (hproper : isName name = true) (hup : name ≠ "..") :
    goal (ofText (child directory name)) = goal (ofText directory) ++ [name] := by
  rw [goal_child hname, List.filter_cons_of_pos hproper, List.filter_nil]
  exact further_of_ne hup

theorem isBelow_child (hname : '/' ∉ name.toList) (hup : name ≠ "..") : IsBelow directory (child directory name) := by
  by_cases hproper : isName name = true
  · exact ⟨[name], goal_child_of_isName hname hproper hup, by simpa using hup.symm⟩
  · refine ⟨[], ?_, List.not_mem_nil⟩
    rw [goal_child hname, List.filter_cons_of_neg hproper, List.filter_nil, List.append_nil]
    rfl

/-- Two points lead out of any directory but the root. -/
theorem isBelow_child_up_iff : IsBelow directory (child directory "..") ↔ goal (ofText directory) = ["/"] := by
  have hgoal : goal (ofText (child directory "..")) = further (goal (ofText directory)) ".." :=
    goal_child (show '/' ∉ "..".toList by decide)
  rw [IsBelow, hgoal]
  generalize goal (ofText directory) = reached
  constructor
  · rintro ⟨rest, hrest, hnone⟩
    refine Decidable.by_contra fun hroot => ?_
    rw [further, if_pos rfl, if_neg hroot] at hrest
    split at hrest
    · obtain rfl := List.append_cancel_left hrest
      exact hnone List.mem_cons_self
    · next hinside =>
      have hlength := congrArg List.length hrest
      have hpos : 0 < reached.length := List.length_pos_iff.mpr fun h => hinside (.inl h)
      rw [List.length_dropLast, List.length_append] at hlength
      omega
  · rintro rfl
    exact ⟨[], further_up_root, List.not_mem_nil⟩

end Path

namespace Files

open PipelineLint.Path

variable {files : Files} {place : Place} {path content name : String} {reached names : List String}

/-- What is no directory lies at the end of the way that is followed. -/
theorem placeAt?_of_follow (h : files.follow reached names = .ok place) (hup : ".." ∉ reached)
    (hplace : ∀ inside, place ≠ .directory inside) : files.placeAt? (names.foldl further reached) = some place := by
  induction names generalizing reached with
  | nil =>
    unfold follow at h
    split at h
    · next found hfound => exact Except.ok.inj h ▸ hfound
    · cases h
  | cons name names ih =>
    unfold follow at h
    split at h
    · cases h
    · cases h
    · cases h
    rw [List.foldl_cons]
    by_cases hname : name = ".."
    · subst hname
      rw [if_pos (beq_self_eq_true _)] at h
      split at h
      · exact absurd (Except.ok.inj h).symm (hplace [])
      · cases h
      · rw [further_up_root]
        exact ih h hup
      · next hroot hnone hsome =>
        have hne : reached ≠ [] := by
          intro hreached
          cases names with
          | nil => exact hnone hreached rfl
          | cons next names => exact hsome next names hreached rfl
        rw [further_up hroot hne hup]
        exact ih h fun hmem => hup ((List.dropLast_sublist _).subset hmem)
    · rw [if_neg (by simpa using hname)] at h
      split at h
      · cases h
      · rw [further_of_ne hname]
        refine ih h ?_
        simp [hup, Ne.symm hname]

private theorem up_notMem_origin (p : Path) : ".." ∉ p.origin := by
  rw [origin]
  split <;> decide

/-- What lies at a path is what the way from its origin leads to. -/
theorem follow_of_place (h : files.place path = .ok place) :
    files.follow (ofText path).origin (ofText path).names = .ok place := by
  unfold Files.place at h
  split at h
  · cases h
  split at h
  · cases h
  split at h
  · cases h
  dsimp only at h
  rw [origin]
  split at h
  · next hfollow =>
    split at h
    · cases h
    · rwa [hfollow]
  · next hfollow =>
    split at h
    · cases h
    · rwa [hfollow]
  · exact h

private theorem placeAt?_goal_of_place (h : files.place path = .ok place)
    (hplace : ∀ inside, place ≠ .directory inside) :
    files.placeAt? (goal (ofText path)) = some place :=
  placeAt?_of_follow (follow_of_place h) (up_notMem_origin _) hplace

/-- What is read at a path is the file at its goal, or nothing at a device. -/
theorem at?_goal_of_read (h : files.read path = .ok content) :
    (∃ file, files.at? (goal (ofText path)) = some file ∧ file.content = content) ∨
      goal (ofText path) = ["/", "dev", "null"] := by
  rw [read] at h
  have hcases (found : Place) (hfound : files.placeAt? (goal (ofText path)) = some found) :
      (∃ file, files.at? (goal (ofText path)) = some file ∧ found = .file file) ∨
        goal (ofText path) = ["/", "dev", "null"] ∨ ∃ inside, found = .directory inside := by
    rw [placeAt?] at hfound
    split at hfound
    · next file hat => exact .inl ⟨file, hat, (Option.some.inj hfound).symm⟩
    · dsimp only at hfound
      split at hfound
      · next hnull => exact .inr (.inl (by simpa using hnull))
      · split at hfound
        · exact .inr (.inr ⟨_, (Option.some.inj hfound).symm⟩)
        · cases hfound
  split at h
  · next file hplace =>
    rcases hcases _ (placeAt?_goal_of_place hplace nofun) with ⟨file', hat, heq⟩ | hnull | ⟨inside, heq⟩
    · obtain rfl := Place.file.inj heq
      exact .inl ⟨file, hat, Except.ok.inj h⟩
    · exact .inr hnull
    · cases heq
  · cases h
  · next hplace =>
    rcases hcases _ (placeAt?_goal_of_place hplace nofun) with ⟨file', -, heq⟩ | hnull | ⟨inside, heq⟩
    · cases heq
    · exact .inr hnull
    · cases heq
  · cases h

/-- No name of a file or folder has a slash in it; the root has its own. -/
def WellNamed (files : Files) : Prop :=
  ∀ way ∈ files.entries.map (·.1) ++ files.folders, ∀ name ∈ way, name = "/" ∨ '/' ∉ name.toList

private theorem slash_notMem_of_mem_steps (h : name ∈ (ofText path).steps) : name = "/" ∨ '/' ∉ name.toList := by
  have hnames (hmem : name ∈ (ofText path).names) : '/' ∉ name.toList := by
    obtain ⟨part, hpart, rfl⟩ := List.mem_map.mp (List.mem_filter.mp hmem).1
    rw [String.toList_ofList]
    exact notMem_of_mem_splitAtChar hpart
  rw [steps] at h
  split at h
  · rcases List.mem_cons.mp h with rfl | h
    · exact .inl rfl
    · exact .inr (hnames h)
  · exact .inr (hnames h)

private theorem WellNamed.write (h : files.WellNamed) (path : String) (file : File) :
    (files.write path file).WellNamed := by
  intro way hway name hname
  simp only [Files.write, List.map_append, List.mem_append, List.mem_map, List.mem_singleton, List.mem_filter] at hway
  rcases hway with (⟨entry, ⟨hentry, -⟩, rfl⟩ | ⟨entry, rfl, rfl⟩) | hfolder
  · exact h _ (List.mem_append_left _ (List.mem_map_of_mem hentry)) name hname
  · exact slash_notMem_of_mem_steps hname
  · exact h way (List.mem_append_right _ hfolder) name hname

theorem wellNamed_ofList (entries : List (String × File)) : (ofList entries).WellNamed :=
  List.foldlRecOn (motive := WellNamed) _ _ (fun _ hway => absurd hway List.not_mem_nil)
    fun _ hfiles entry _ => hfiles.write entry.1 entry.2

private theorem slash_notMem_of_follow {inside : List String} (hfiles : files.WellNamed)
    (h : files.follow reached names = .ok (.directory inside)) : ∀ name ∈ inside, '/' ∉ name.toList := by
  have hbelow (way : List String) : ∀ name ∈ (files.below way).filter (· != "/"), '/' ∉ name.toList := by
    intro name hname
    obtain ⟨hmem, hroot⟩ := List.mem_filter.mp hname
    rw [below, List.mem_eraseDups, List.mem_filterMap] at hmem
    obtain ⟨path, hpath, hget⟩ := hmem
    obtain ⟨-, hget⟩ := Option.ite_none_right_eq_some.mp hget
    exact (hfiles path hpath name (List.mem_of_getElem? hget)).resolve_left (by simpa using hroot)
  induction names generalizing reached with
  | nil =>
    unfold follow at h
    split at h
    · next found hfound =>
      obtain rfl := Except.ok.inj h
      rw [placeAt?] at hfound
      split at hfound
      · cases hfound
      · dsimp only at hfound
        split at hfound
        · cases hfound
        · split at hfound
          · obtain rfl := Place.directory.inj (Option.some.inj hfound)
            exact hbelow reached
          · cases hfound
    · cases h
  | cons name names ih =>
    unfold follow at h
    split at h
    · cases h
    · cases h
    · cases h
    split at h
    · split at h
      · obtain rfl := Place.directory.inj (Except.ok.inj h)
        exact fun _ hname => absurd hname List.not_mem_nil
      · cases h
      · exact ih h
      · exact ih h
    · split at h
      · cases h
      · exact ih h

/-- The names that are listed have no slashes. -/
theorem slash_notMem_of_list (hfiles : files.WellNamed) (h : files.list path = .ok names) :
    ∀ name ∈ names, '/' ∉ name.toList := by
  rw [list] at h
  split at h
  · cases h
  · cases h
  · next inside hplace =>
    obtain rfl := Except.ok.inj h
    exact slash_notMem_of_follow hfiles (follow_of_place hplace)
  · cases h

end Files

end PipelineLint
