import PipelineLint.Proofs.Reference
import PipelineLint.Proofs.Text.Split

/-! # Scanning for references

A place of a text is the site of a reference where the characters between its two offsets spell one. The scanner lists
the sites of a text from left to right (`findAll_exact`), and the predicates on texts say what it lists
(`predicates_agree`): a text has a reference just if the scanner finds one, and it is a reference just if the scanner
finds one that reaches from its start to its end.

Any white space may stand between the brackets of a reference and its path, but only spaces are removed when the path is
told (`names_of_mem_findAll`). So the name is the one that is written just if nothing but spaces follows it.
-/

namespace PipelineLint.Reference

section

open Text

variable {cs whole : List Char} {r : Reference}

def path (scope : Scope) (name : List Char) : List Char := scope.words.toList ++ '.' :: name

theorem spelling_eq (scope : Scope) (before name after : List Char) : spelling scope before name after =
    "<<".toList ++ ((before ++ (path scope name ++ after)) ++ ">>".toList) := by
  simp [spelling, path]

/-- Between its brackets a reference has no angle bracket. -/
theorem ne_bracket_of_mem_inner {scope : Scope} {before name after : List Char} (hbefore : Blanks before)
    (hname : ∀ c ∈ name, isNameChar c = true) (hafter : Blanks after) {c : Char}
    (hc : c ∈ before ++ (path scope name ++ after)) : c ≠ '<' ∧ c ≠ '>' := by
  have hclass {p : Char → Bool} (hopen : p '<' = false) (hclose : p '>' = false) (hc : p c = true) :
      c ≠ '<' ∧ c ≠ '>' := by
    constructor
    · rintro rfl
      exact Bool.false_ne_true (hopen.symm.trans hc)
    · rintro rfl
      exact Bool.false_ne_true (hclose.symm.trans hc)
  have hopen : '<' ∉ scope.words.toList := by cases scope <;> decide
  have hclose : '>' ∉ scope.words.toList := by cases scope <;> decide
  rw [path, List.mem_append, List.mem_append, List.mem_append, List.mem_cons] at hc
  rcases hc with hc | (hc | rfl | hc) | hc
  · exact hclass (by decide) (by decide) (hbefore c hc)
  · exact ⟨fun h => hopen (h ▸ hc), fun h => hclose (h ▸ hc)⟩
  · decide
  · exact hclass (by decide) (by decide) (hname c hc)
  · exact hclass (by decide) (by decide) (hafter c hc)

/-- The characters between two offsets spell a reference of the scope. -/
def Site (cs : List Char) (start stop : Nat) (scope : Scope) : Prop :=
  ∃ name whole, slice? cs start stop = some whole ∧ Spells scope name whole

/-- The text is `<<`, blank characters, the words, a point, a name, blank characters and `>>`. -/
def Worded (words : String) (whole : List Char) : Prop :=
  ∃ before name after, Blanks before ∧ (∀ c ∈ name, isNameChar c = true) ∧ Blanks after ∧
    whole = "<<".toList ++ before ++ words.toList ++ ['.'] ++ name ++ after ++ ">>".toList

private theorem worded_iff_exists_spells {scope : Scope} :
    Worded scope.words whole ↔ ∃ name, Spells scope name whole := by
  have hwhole (before name after : List Char) :
      "<<".toList ++ before ++ scope.words.toList ++ ['.'] ++ name ++ after ++ ">>".toList =
        spelling scope before name after := by
    simp only [spelling, List.append_assoc, List.cons_append, List.nil_append]
  constructor
  · rintro ⟨before, name, after, hbefore, hname, hafter, rfl⟩
    exact ⟨name, before, after, hbefore, hname, hafter, hwhole before name after⟩
  · rintro ⟨name, before, after, hbefore, hname, hafter, rfl⟩
    exact ⟨before, name, after, hbefore, hname, hafter, (hwhole before name after).symm⟩

/-- What a text spells is clear. -/
theorem Spells.unique {scope scope' : Scope} {name name' : List Char} (h : Spells scope name whole)
    (h' : Spells scope' name' whole) : scope = scope' ∧ name = name' := by
  have hmatch : match? whole = some ⟨scope, name, whole, []⟩ :=
    match?_eq_some_iff.mpr ⟨(List.append_nil whole).symm, h⟩
  have hmatch' : match? whole = some ⟨scope', name', whole, []⟩ :=
    match?_eq_some_iff.mpr ⟨(List.append_nil whole).symm, h'⟩
  have heq := Option.some.inj (hmatch.symm.trans hmatch')
  exact ⟨congrArg Match.scope heq, congrArg Match.name heq⟩

theorem Spells.byteLength_pos {scope : Scope} {name : List Char} (h : Spells scope name whole) :
    0 < byteLength whole := by
  obtain ⟨body, rfl, -, -⟩ := h.eq_cons
  exact Text.byteLength_pos (List.cons_ne_nil _ _)

theorem Occurs.slice?_eq (h : Occurs cs whole r) : slice? cs r.start r.stop = some whole := by
  obtain ⟨before, after, rfl, hstart⟩ := h.placed
  rw [h.stop_eq, hstart]
  exact slice?_append before whole after

theorem exists_whole_of_mem_findAll (h : r ∈ findAll cs) :
    ∃ name whole, slice? cs r.start r.stop = some whole ∧ Spells r.scope name whole := by
  obtain ⟨whole, hoccurs⟩ := mem_findAll_iff.mp h
  obtain ⟨name, hspells⟩ := hoccurs.spells
  exact ⟨name, whole, hoccurs.slice?_eq, hspells⟩

/-- A reference that is found has characters, and all of them are of the text. -/
theorem lt_of_mem_findAll (h : r ∈ findAll cs) : r.start < r.stop ∧ r.stop ≤ byteLength cs := by
  obtain ⟨whole, hoccurs⟩ := mem_findAll_iff.mp h
  obtain ⟨name, hspells⟩ := hoccurs.spells
  obtain ⟨before, after, rfl, hstart⟩ := hoccurs.placed
  have hpos := hspells.byteLength_pos
  have hstop := hoccurs.stop_eq
  simp only [byteLength_append]
  omega

theorem site_iff_exists_mem_findAll {start stop : Nat} {scope : Scope} :
    Site cs start stop scope ↔ ∃ r ∈ findAll cs, r.start = start ∧ r.stop = stop ∧ r.scope = scope := by
  constructor
  · rintro ⟨name, whole, hslice, hspells⟩
    obtain ⟨after, hcs, hstart, hstop⟩ := exists_append_of_slice? hslice
    let r : Reference :=
      ⟨String.ofList (pathAndName whole).2, String.ofList (pathAndName whole).1, scope, start, stop⟩
    have hoccurs : Occurs cs whole r := ⟨⟨name, hspells⟩, ⟨_, after, hcs, hstart.symm⟩, hstop.symm, rfl, rfl⟩
    exact ⟨r, mem_findAll_iff.mpr ⟨whole, hoccurs⟩, rfl, rfl, rfl⟩
  · rintro ⟨r, hr, rfl, rfl, rfl⟩
    exact exists_whole_of_mem_findAll hr

private theorem isBoundary_of_slice? {start stop : Nat} (h : slice? cs start stop = some whole) :
    isBoundary start cs = true ∧ isBoundary stop cs = true := by
  simp only [slice?, Option.ite_none_right_eq_some] at h
  exact h.1.2

def place (r : Reference) : Nat × Nat × Scope := (r.start, r.stop, r.scope)

/-- The scanner lists all sites of a text and nothing else, from left to right. No two of them share a character, they
are cut out of the text between characters, and the scope is told by the words. -/
theorem findAll_exact (cs : List Char) :
    (∀ start stop scope, (start, stop, scope) ∈ (findAll cs).map place ↔ Site cs start stop scope) ∧
      (findAll cs).Pairwise (fun r r' => r.start < r'.start ∧ r.stop ≤ r'.start) ∧
      ∀ r ∈ findAll cs, r.start < r.stop ∧ r.stop ≤ byteLength cs ∧
        isBoundary r.start cs = true ∧ isBoundary r.stop cs = true ∧
        ∃ whole, slice? cs r.start r.stop = some whole ∧
          (r.scope = .enclosing ↔ Worded "parameters" whole) ∧
          (r.scope = .pipeline ↔ Worded "pipeline.parameters" whole) := by
  refine ⟨fun start stop scope => ?_, ?_, fun r hr => ?_⟩
  · rw [site_iff_exists_mem_findAll, List.mem_map]
    constructor
    · rintro ⟨r, hr, hplace⟩
      obtain ⟨hstart, hstop, hscope⟩ : r.start = start ∧ r.stop = stop ∧ r.scope = scope := by
        simpa [place] using hplace
      exact ⟨r, hr, hstart, hstop, hscope⟩
    · rintro ⟨r, hr, rfl, rfl, rfl⟩
      exact ⟨r, hr, rfl⟩
  · apply (pairwise_findAll cs).imp_of_mem
    intro r r' hr _ hle
    exact ⟨Nat.lt_of_lt_of_le (lt_of_mem_findAll hr).1 hle, hle⟩
  · obtain ⟨hlt, hle⟩ := lt_of_mem_findAll hr
    obtain ⟨name, whole, hslice, hspells⟩ := exists_whole_of_mem_findAll hr
    obtain ⟨hstart, hstop⟩ := isBoundary_of_slice? hslice
    have hscope (scope : Scope) : r.scope = scope ↔ Worded scope.words whole := by
      rw [worded_iff_exists_spells]
      constructor
      · rintro rfl
        exact ⟨name, hspells⟩
      · rintro ⟨name', hspells'⟩
        exact (hspells.unique hspells').1
    exact ⟨hlt, hle, hstart, hstop, whole, hslice, hscope .enclosing, hscope .pipeline⟩

theorem anySuffix_iff {p : List Char → Bool} :
    anySuffix p cs = true ↔ ∃ before rest, cs = before ++ rest ∧ p rest = true := by
  constructor
  · exact exists_of_anySuffix
  · rintro ⟨before, rest, rfl, h⟩
    induction before with
    | nil =>
      cases rest with
      | nil => exact h
      | cons c rest => exact Bool.or_eq_true_iff.mpr (.inl h)
    | cons c before ih => exact Bool.or_eq_true_iff.mpr (.inr ih)

theorem occursIn_iff {text : String} : occursIn text = true ↔ findAll text.toList ≠ [] := by
  rw [occursIn, anySuffix_iff]
  constructor
  · rintro ⟨before, rest, hcs, hsome⟩
    obtain ⟨m, hmatch⟩ := Option.isSome_iff_exists.mp hsome
    have hmem : ofMatch (0 + byteLength before) m ∈ findAll text.toList := by
      rw [findAll_eq_everywhere, mem_everywhere_iff]
      exact ⟨before, rest, m, hcs, hmatch, rfl⟩
    exact List.ne_nil_of_mem hmem
  · intro hne
    obtain ⟨r, hr⟩ := List.exists_mem_of_ne_nil _ hne
    rw [findAll_eq_everywhere, mem_everywhere_iff] at hr
    obtain ⟨before, rest, m, hcs, hmatch, -⟩ := hr
    exact ⟨before, rest, hcs, Option.isSome_iff_exists.mpr ⟨m, hmatch⟩⟩

private theorem isOnly_iff_exists_spells {text : String} :
    isOnly text = true ↔ ∃ scope name, Spells scope name text.toList := by
  rw [isOnly]
  constructor
  · intro h
    split at h
    · next m hmatch =>
      obtain ⟨hcs, hspells⟩ := match?_eq_some_iff.mp hmatch
      rw [List.isEmpty_iff.mp h, List.append_nil] at hcs
      exact ⟨m.scope, m.name, hcs ▸ hspells⟩
    · cases h
  · rintro ⟨scope, name, hspells⟩
    have hmatch : match? text.toList = some ⟨scope, name, text.toList, []⟩ :=
      match?_eq_some_iff.mpr ⟨(List.append_nil _).symm, hspells⟩
    rw [hmatch]
    rfl

/-- Next to a reference that takes up the whole text there is no room for another. -/
theorem findAll_eq_singleton (hr : r ∈ findAll cs) (hstart : r.start = 0) (hstop : r.stop = byteLength cs) :
    findAll cs = [r] := by
  have hfound : ∀ r' ∈ findAll cs, r'.start < r'.stop ∧ r'.stop ≤ byteLength cs := fun _ => lt_of_mem_findAll
  have hpairwise := pairwise_findAll cs
  generalize findAll cs = found at hr hfound hpairwise
  cases found with
  | nil => cases hr
  | cons first others =>
    obtain ⟨hfirst, -⟩ := List.pairwise_cons.mp hpairwise
    rcases List.mem_cons.mp hr with rfl | hothers
    · cases others with
      | nil => rfl
      | cons second others =>
        have hle := hfirst second List.mem_cons_self
        have hsecond := hfound second (List.mem_cons_of_mem _ List.mem_cons_self)
        omega
    · have hle := hfirst r hothers
      have hlt := (hfound first List.mem_cons_self).1
      omega

theorem isOnly_iff {text : String} : isOnly text = true ↔
    ∃ r, findAll text.toList = [r] ∧ r.start = 0 ∧ r.stop = byteLength text.toList := by
  have hsite : (∃ scope name, Spells scope name text.toList) ↔
      ∃ scope, Site text.toList 0 (byteLength text.toList) scope := by
    have hslice := slice?_append [] text.toList []
    rw [List.nil_append, List.append_nil, byteLength_nil, Nat.zero_add] at hslice
    constructor
    · rintro ⟨scope, name, hspells⟩
      exact ⟨scope, name, _, hslice, hspells⟩
    · rintro ⟨scope, name, whole, hslice', hspells⟩
      obtain rfl := Option.some.inj (hslice.symm.trans hslice')
      exact ⟨scope, name, hspells⟩
  rw [isOnly_iff_exists_spells, hsite]
  constructor
  · rintro ⟨scope, hsite⟩
    obtain ⟨r, hr, hstart, hstop, -⟩ := site_iff_exists_mem_findAll.mp hsite
    exact ⟨r, findAll_eq_singleton hr hstart hstop, hstart, hstop⟩
  · rintro ⟨r, hfound, hstart, hstop⟩
    have hr : r ∈ findAll text.toList := hfound ▸ List.mem_singleton_self r
    exact ⟨r.scope, site_iff_exists_mem_findAll.mpr ⟨r, hr, hstart, hstop, rfl⟩⟩

private theorem Spells.startsSubstitution {scope : Scope} {name : List Char} (h : Spells scope name whole)
    (rest : List Char) : startsSubstitution (whole ++ rest) = true := by
  obtain ⟨before, after, hbefore, hname, hafter, rfl⟩ := h
  have hwhole : spelling scope before name after ++ rest =
      "<<".toList ++ ((before ++ (path scope name ++ after)) ++ '>' :: '>' :: rest) := by
    simp [spelling_eq]
  have hinner : ∀ c ∈ before ++ (path scope name ++ after), (c != '<' && c != '>') = true := by
    intro c hc
    obtain ⟨hopen, hclose⟩ := ne_bracket_of_mem_inner hbefore hname hafter hc
    simp [hopen, hclose]
  have hdrop : ((before ++ (path scope name ++ after)) ++ '>' :: '>' :: rest).dropWhile
      (fun c => c != '<' && c != '>') = '>' :: '>' :: rest := by
    rw [List.dropWhile_append_of_pos hinner]
    rfl
  rw [hwhole, Reference.startsSubstitution, dropPrefix?_eq_some_iff.mpr rfl]
  dsimp only
  rw [hdrop]
  rfl

theorem occursIn_of_isOnly {text : String} (h : isOnly text = true) : occursIn text = true := by
  obtain ⟨r, hfound, -⟩ := isOnly_iff.mp h
  rw [occursIn_iff, hfound]
  exact List.cons_ne_nil r []

theorem hasSubstitution_of_occursIn {text : String} (h : occursIn text = true) : hasSubstitution text = true := by
  obtain ⟨before, rest, hcs, hsome⟩ := anySuffix_iff.mp h
  obtain ⟨m, hmatch⟩ := Option.isSome_iff_exists.mp hsome
  obtain ⟨rfl, hspells⟩ := match?_eq_some_iff.mp hmatch
  exact anySuffix_iff.mpr ⟨before, _, hcs, hspells.startsSubstitution m.rest⟩

/-- The predicates on texts say what the scanner finds. -/
theorem predicates_agree (text : String) :
    (occursIn text = true ↔ findAll text.toList ≠ []) ∧
      (isOnly text = true ↔ ∃ r, findAll text.toList = [r] ∧ r.start = 0 ∧ r.stop = text.utf8ByteSize) ∧
      (isOnly text = true → occursIn text = true) ∧
      (occursIn text = true → hasSubstitution text = true) := by
  refine ⟨occursIn_iff, ?_, occursIn_of_isOnly, hasSubstitution_of_occursIn⟩
  rw [← byteLength_toList]
  exact isOnly_iff

end

open Text

variable {scope : Scope} {before name after : List Char}

/-- A path ends with its point or with a character of names. -/
theorem getLast?_path (hname : ∀ c ∈ name, isNameChar c = true) :
    ∀ c ∈ (path scope name).getLast?, c = '.' ∨ isNameChar c = true := by
  intro c hc
  rw [path, List.getLast?_append_of_ne_nil _ (List.cons_ne_nil _ _)] at hc
  rcases List.mem_cons.mp (List.mem_of_getLast? hc) with rfl | hc
  · exact .inl rfl
  · exact .inr (hname c hc)

theorem path_ne_nil : path scope name ≠ [] := by simp [path]

private theorem trim_brackets (hbefore : Blanks before) (hname : ∀ c ∈ name, isNameChar c = true)
    (hafter : Blanks after) :
    trimWhile (· == '>') (trimWhile (· == '<') (spelling scope before name after)) =
      before ++ (path scope name ++ after) := by
  generalize hinside : before ++ (path scope name ++ after) = inside
  have hne : inside ≠ [] := by simp [← hinside, path]
  have hbracket : ∀ c ∈ inside, c ≠ '<' ∧ c ≠ '>' := by
    rw [← hinside]
    exact fun c => ne_bracket_of_mem_inner hbefore hname hafter
  have hopen : trimWhile (· == '<') ("<<".toList ++ (inside ++ ">>".toList)) = inside ++ ">>".toList := by
    apply trimWhile_append
    · intro c hc
      exact beq_eq_false_iff_ne.mpr (hbracket c (List.mem_of_mem_head? hc)).1
    · intro c hc
      exact beq_eq_false_iff_ne.mpr (hbracket c (List.mem_of_getLast? hc)).1
    · exact hne
  have hclose : trimWhile (· == '>') ([] ++ (inside ++ ">>".toList)) = [] ++ (inside ++ []) := by
    apply trimWhile_append
    · intro c hc
      exact beq_eq_false_iff_ne.mpr (hbracket c (List.mem_of_mem_head? hc)).2
    · intro c hc
      exact beq_eq_false_iff_ne.mpr (hbracket c (List.mem_of_getLast? hc)).2
    · exact hne
  rw [List.nil_append, List.nil_append, List.append_nil] at hclose
  rw [spelling_eq, hinside, hopen, hclose]

private theorem trim_spaces (before after : List Char) (hname : ∀ c ∈ name, isNameChar c = true) :
    trimWhile (· == ' ') (before ++ (path scope name ++ after)) =
      before.dropWhile (· == ' ') ++ (path scope name ++ dropEndWhile (· == ' ') after) := by
  apply trimWhile_append
  · have hhead : (path scope name).head? = some 'p' := by cases scope <;> rfl
    rw [hhead]
    rintro c ⟨⟩
    rfl
  · intro c hc
    rw [beq_eq_false_iff_ne]
    rintro rfl
    rcases getLast?_path hname ' ' hc with heq | hspace
    · cases heq
    · cases hspace
  · exact path_ne_nil

/-- Of the white space around its path, a reference is told with all but the spaces at the ends; what follows the name
counts to the name. -/
theorem pathAndName_spelling (hbefore : Blanks before) (hname : ∀ c ∈ name, isNameChar c = true)
    (hafter : Blanks after) :
    pathAndName (spelling scope before name after) =
      (before.dropWhile (· == ' ') ++ (path scope name ++ dropEndWhile (· == ' ') after),
        name ++ dropEndWhile (· == ' ') after) := by
  have hend : ∀ c ∈ dropEndWhile (· == ' ') after, isBlank c = true := by
    intro c hc
    apply hafter
    rw [dropEndWhile, List.mem_reverse] at hc
    exact List.mem_reverse.mp ((List.dropWhile_suffix _).mem hc)
  have hpoint : '.' ∉ name ++ dropEndWhile (· == ' ') after := by
    intro hmem
    rcases List.mem_append.mp hmem with hmem | hmem
    · cases hname _ hmem
    · cases hend _ hmem
  have hlast : (splitAtChar '.' (before.dropWhile (· == ' ') ++ (path scope name ++ dropEndWhile (· == ' ') after))).getLast? =
      some (name ++ dropEndWhile (· == ' ') after) := by
    have hsplit := getLast?_splitAtChar (before.dropWhile (· == ' ') ++ scope.words.toList) hpoint
    rw [List.append_assoc] at hsplit
    rw [path, List.append_assoc, List.cons_append]
    exact hsplit
  rw [pathAndName, trim_brackets hbefore hname hafter, trim_spaces before after hname, hlast, Option.getD_some]

/-- Nothing is left around a middle part just if all around it is dropped. -/
theorem dropWhile_append_eq_iff (p : Char → Bool) (before between after : List Char) :
    before.dropWhile p ++ (between ++ dropEndWhile p after) = between ↔
      (∀ c ∈ before, p c = true) ∧ ∀ c ∈ after, p c = true := by
  have hback : dropEndWhile p after = [] ↔ ∀ c ∈ after, p c = true := dropEndWhile_eq_nil_iff
  rw [← hback, ← List.dropWhile_eq_nil_iff (l := before)]
  constructor
  · intro h
    have hlength := congrArg List.length h
    simp only [List.length_append] at hlength
    exact ⟨List.eq_nil_of_length_eq_zero (by omega), List.eq_nil_of_length_eq_zero (by omega)⟩
  · rintro ⟨hbefore, hafter⟩
    rw [hbefore, hafter, List.nil_append, List.append_nil]

/-- How a reference is told: the text that it stands for is spelled with some white space before and after the path,
and only spaces are removed there. Its name is the one that is spelled just if spaces follow it, and its path is the
one that is spelled just if spaces stand before and after it. -/
theorem names_of_mem_findAll {cs : List Char} {r : Reference} (hr : r ∈ findAll cs) : ∃ before name after,
    Blanks before ∧ (∀ c ∈ name, isNameChar c = true) ∧ Blanks after ∧
      slice? cs r.start r.stop = some (spelling r.scope before name after) ∧
      r.name = String.ofList (name ++ dropEndWhile (· == ' ') after) ∧
      r.fullName = String.ofList
        (before.dropWhile (· == ' ') ++ (path r.scope name ++ dropEndWhile (· == ' ') after)) ∧
      (r.name = String.ofList name ↔ ∀ c ∈ after, c = ' ') ∧
      (r.fullName = String.ofList (path r.scope name) ↔ (∀ c ∈ before, c = ' ') ∧ ∀ c ∈ after, c = ' ') := by
  obtain ⟨whole, hoccurs⟩ := mem_findAll_iff.mp hr
  obtain ⟨name, before, after, hbefore, hname, hafter, rfl⟩ := hoccurs.spells
  obtain ⟨hfull, htold⟩ := hoccurs.named
  rw [pathAndName_spelling hbefore hname hafter] at hfull htold
  refine ⟨before, name, after, hbefore, hname, hafter, hoccurs.slice?_eq, htold, hfull, ?_, ?_⟩
  · have hleft := dropWhile_append_eq_iff (· == ' ') [] name after
    rw [List.dropWhile_nil, List.nil_append] at hleft
    rw [htold, String.ofList_inj, hleft]
    simp
  · rw [hfull, String.ofList_inj, dropWhile_append_eq_iff]
    simp only [beq_iff_eq]

/-- A path between a space and a tab, after another text. -/
def spacedAndTabbed : List Char := "echo << parameters.x\t>>".toList

theorem names_of_spacedAndTabbed :
    (⟨"x\t", "parameters.x\t", .enclosing, 5, 23⟩ : Reference) ∈ findAll spacedAndTabbed ∧
      ∃ before name after, Blanks before ∧ (∀ c ∈ name, isNameChar c = true) ∧ Blanks after ∧
        slice? spacedAndTabbed 5 23 = some (spelling .enclosing before name after) ∧
        "x\t" = String.ofList (name ++ dropEndWhile (· == ' ') after) ∧
        "parameters.x\t" = String.ofList
          (before.dropWhile (· == ' ') ++ (path .enclosing name ++ dropEndWhile (· == ' ') after)) ∧
        ("x\t" = String.ofList name ↔ ∀ c ∈ after, c = ' ') ∧
        ("parameters.x\t" = String.ofList (path .enclosing name) ↔ (∀ c ∈ before, c = ' ') ∧ ∀ c ∈ after, c = ' ') := by
  have hmem : (⟨"x\t", "parameters.x\t", .enclosing, 5, 23⟩ : Reference) ∈ findAll spacedAndTabbed := by decide +kernel
  exact ⟨hmem, names_of_mem_findAll hmem⟩

/-- A path between two tabs. -/
def tabbed : List Char := "<<\tparameters.x\t>>".toList

/-- The reference is spelled with the name `x`, but it is told with the tabs. -/
theorem names_keep_tabs : ¬ ∀ r ∈ findAll tabbed, ∀ name whole,
    slice? tabbed r.start r.stop = some whole → Spells r.scope name whole →
      r.name = String.ofList name ∧ r.fullName = String.ofList (path r.scope name) := by
  intro h
  have hmem : (⟨"x\t", "\tparameters.x\t", .enclosing, 0, 18⟩ : Reference) ∈ findAll tabbed := by decide +kernel
  have hslice : slice? tabbed 0 18 = some tabbed := by decide +kernel
  have hblanks : Blanks ['\t'] := List.forall_mem_singleton.mpr (by decide)
  have hname : ∀ c ∈ ['x'], isNameChar c = true := List.forall_mem_singleton.mpr (by decide)
  have hspells : Spells .enclosing ['x'] tabbed := ⟨['\t'], ['\t'], hblanks, hname, hblanks, by decide⟩
  exact absurd (h _ hmem _ _ hslice hspells).1 (by decide)

end PipelineLint.Reference
