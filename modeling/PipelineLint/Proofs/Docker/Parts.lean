import PipelineLint.Docker.Image
import PipelineLint.Proofs.Text.Blank

/-! # The form of image references

A reference is `owner/name:rest`, where the owner with its slash and the rest with its colon may be left out. Taking a
reference apart accepts this form and nothing else, so each reference has its parts in one way, and a reference that is
written from parts gives them back: `parse_exact`.
-/

namespace PipelineLint.Docker.Image

open Text

def IsWord (cs : List Char) : Prop := cs ≠ [] ∧ ∀ c ∈ cs, isNameChar c = true

/-- The parts of a reference: what stands before a slash, a name, and what follows a colon. -/
structure Parts where
  owner : Option (List Char) := none
  name : List Char
  rest : Option (List Char) := none

namespace Parts

def text (p : Parts) : List Char :=
  p.owner.elim [] (· ++ ['/']) ++ (p.name ++ p.rest.elim [] (':' :: ·))

/-- Each part has the characters that are allowed in it. -/
structure WellFormed (p : Parts) : Prop where
  owner : ∀ owner ∈ p.owner, IsWord owner
  name : IsWord p.name
  rest : ∀ rest ∈ p.rest, '\n' ∉ rest

end Parts

variable {cs word rest name tag : List Char} {owner : Option (List Char)} {p q : Parts}

theorem IsWord.eq_cons (h : IsWord word) : ∃ c cs, word = c :: cs ∧ isNameChar c = true := by
  obtain ⟨hne, hall⟩ := h
  obtain ⟨c, cs, rfl⟩ := List.exists_cons_of_ne_nil hne
  exact ⟨c, cs, rfl, hall c List.mem_cons_self⟩

theorem isWord_takeWhile (h : cs.takeWhile isNameChar ≠ []) : IsWord (cs.takeWhile isNameChar) :=
  ⟨h, List.all_eq_true.mp List.all_takeWhile⟩

private theorem splitOwner_word (h : IsWord word) (rest : List Char) :
    splitOwner (word ++ '/' :: rest) = (some word, rest) := by
  have hslash : ∀ c ∈ ('/' :: rest).head?, isNameChar c = false := by
    rintro _ ⟨⟩
    decide
  obtain ⟨c, cs, rfl, -⟩ := h.eq_cons
  rw [splitOwner, takeWhile_run h.2 hslash, dropWhile_run h.2 hslash]
  rfl

/-- What follows the name is nothing, or a colon and the rest. -/
theorem head_rest (p : Parts) : ∀ c ∈ (p.rest.elim [] (':' :: ·)).head?, c = ':' := by
  cases p.rest with
  | none => simp
  | some rest =>
    rintro _ ⟨⟩
    rfl

theorem isNameChar_head_rest (p : Parts) : ∀ c ∈ (p.rest.elim [] (':' :: ·)).head?, isNameChar c = false := by
  intro c hc
  rw [head_rest p c hc]
  decide

private theorem splitOwner_text (h : p.WellFormed) :
    splitOwner p.text = (p.owner, p.name ++ p.rest.elim [] (':' :: ·)) := by
  rw [Parts.text]
  cases howner : p.owner with
  | some owner =>
    have hsplit := splitOwner_word (h.owner owner howner) (p.name ++ p.rest.elim [] (':' :: ·))
    simpa using hsplit
  | none =>
    have hafter := dropWhile_run h.name.2 (isNameChar_head_rest p)
    rw [Option.elim_none, List.nil_append, splitOwner]
    split
    · next rest _ heq =>
      rw [hafter] at heq
      have hcolon := head_rest p '/' (by rw [heq]; rfl)
      exact absurd hcolon (by decide)
    · rfl

theorem parts?_text (h : p.WellFormed) : parts? p.text = some (p.owner, p.name, p.rest.getD []) := by
  have hname := takeWhile_run h.name.2 (isNameChar_head_rest p)
  have hafter := dropWhile_run h.name.2 (isNameChar_head_rest p)
  rw [parts?, splitOwner_text h]
  dsimp only
  rw [hname, hafter]
  obtain ⟨c, cs, hcons, -⟩ := h.name.eq_cons
  rw [hcons]
  cases hrest : p.rest with
  | none => rfl
  | some rest =>
    have hline := h.rest rest hrest
    simp [hline]

private theorem exists_of_splitOwner (cs : List Char) : ∃ owner rest, splitOwner cs = (owner, rest) ∧
    (∀ word ∈ owner, IsWord word) ∧ cs = owner.elim [] (· ++ ['/']) ++ rest := by
  rw [splitOwner]
  split
  · next c word rest hword hrest =>
    refine ⟨_, _, rfl, ?_, ?_⟩
    · rintro _ ⟨⟩
      rw [← hword]
      exact isWord_takeWhile (by simp [hword])
    · have hsplit := List.takeWhile_append_dropWhile (p := isNameChar) (l := cs)
      rw [hword, hrest] at hsplit
      simpa using hsplit.symm
  · exact ⟨none, cs, rfl, by simp, rfl⟩

/-- Taking a reference apart finds parts from which it is written. -/
theorem exists_of_parts?_eq_some (h : parts? cs = some (owner, name, tag)) :
    ∃ p : Parts, p.WellFormed ∧ p.text = cs ∧ p.owner = owner ∧ p.name = name ∧ p.rest.getD [] = tag := by
  obtain ⟨found, rest, hsplit, hword, hcs⟩ := exists_of_splitOwner cs
  have hrest := List.takeWhile_append_dropWhile (p := isNameChar) (l := rest)
  rw [parts?, hsplit] at h
  dsimp only at h
  split at h
  · cases h
  · next hnothing hne =>
    cases h
    rw [hnothing, List.append_nil] at hrest
    exact ⟨⟨owner, rest.takeWhile isNameChar, none⟩, ⟨hword, isWord_takeWhile hne, by simp⟩,
      by simp [Parts.text, hrest, hcs], rfl, rfl, rfl⟩
  · next hcolon hne =>
    obtain ⟨hline, h⟩ := Option.ite_none_left_eq_some.mp h
    cases h
    rw [hcolon] at hrest
    refine ⟨⟨owner, rest.takeWhile isNameChar, some tag⟩, ⟨hword, isWord_takeWhile hne, ?_⟩,
      by simp [Parts.text, hrest, hcs], rfl, rfl, rfl⟩
    rintro _ ⟨⟩
    simpa using hline
  · cases h

/-- A reference is written from its parts in one way. -/
theorem Parts.eq_of_text_eq (hp : p.WellFormed) (hq : q.WellFormed) (h : p.text = q.text) : p = q := by
  obtain ⟨howner, hname, -⟩ : p.owner = q.owner ∧ p.name = q.name ∧ p.rest.getD [] = q.rest.getD [] := by
    have hparts := parts?_text hp
    rw [h, parts?_text hq] at hparts
    simpa [eq_comm] using hparts
  have hrest : p.rest.elim [] (':' :: ·) = q.rest.elim [] (':' :: ·) := by
    rw [Parts.text, Parts.text, howner, hname] at h
    exact List.append_cancel_left (List.append_cancel_left h)
  obtain ⟨powner, pname, prest⟩ := p
  obtain ⟨qowner, qname, qrest⟩ := q
  cases prest <;> cases qrest <;> simp_all

/-- An anchor in front of a text is taken off: its sign, the longest name after it, and all white space behind that. -/
inductive TakesOff : List Char → List Char → Prop where
  | anchor {name blanks path : List Char} (named : name ≠ []) (word : ∀ c ∈ name, isAnchorChar c = true)
      (blank : Blanks blanks) (longest : ∀ c ∈ (blanks ++ path).head?, isAnchorChar c = false)
      (all : ∀ c ∈ path.head?, isBlank c = false) : TakesOff ('&' :: (name ++ (blanks ++ path))) path

/-- The text without an anchor in front of it, if it has one. -/
def IsBare (cs path : List Char) : Prop := TakesOff cs path ∨ path = cs ∧ ∀ other, ¬TakesOff cs other

theorem TakesOff.dropAnchor_eq {path : List Char} (h : TakesOff cs path) : dropAnchor cs = path := by
  obtain ⟨named, word, blank, longest, all⟩ := h
  rename_i name blanks
  rw [dropAnchor, takeWhile_run word longest, dropWhile_run word longest]
  split
  · exact absurd rfl named
  · rw [trimStart, dropWhile_run blank all]

private theorem isBare_dropAnchor (cs : List Char) : IsBare cs (dropAnchor cs) := by
  by_cases h : ∃ path, TakesOff cs path
  · obtain ⟨path, hpath⟩ := h
    exact .inl (hpath.dropAnchor_eq ▸ hpath)
  · refine .inr ⟨?_, not_exists.mp h⟩
    unfold dropAnchor
    split
    · next cs =>
      split
      · rfl
      · next hname =>
        refine absurd ⟨trimStart (cs.dropWhile isAnchorChar), ?_⟩ h
        have hblanks := List.takeWhile_append_dropWhile (p := isBlank) (l := cs.dropWhile isAnchorChar)
        have hsplit := List.takeWhile_append_dropWhile (p := isAnchorChar) (l := cs)
        have hanchor : TakesOff ('&' :: (cs.takeWhile isAnchorChar ++
            ((cs.dropWhile isAnchorChar).takeWhile isBlank ++ trimStart (cs.dropWhile isAnchorChar))))
            (trimStart (cs.dropWhile isAnchorChar)) := by
          refine .anchor hname (List.all_eq_true.mp List.all_takeWhile) (blanks_takeWhile _) ?_ ?_
          · rw [trimStart, hblanks]
            exact head_dropWhile isAnchorChar cs
          · exact head_dropWhile isBlank _
        rwa [trimStart, hblanks, hsplit] at hanchor
    · rfl

theorem isBare_iff {path : List Char} : IsBare cs path ↔ path = dropAnchor cs := by
  constructor
  · rintro (h | ⟨rfl, hnone⟩)
    · exact h.dropAnchor_eq.symm
    · obtain h | ⟨heq, -⟩ := isBare_dropAnchor path
      · exact absurd h (hnone _)
      · exact heq.symm
  · rintro rfl
    exact isBare_dropAnchor cs

/-- No anchor stands in front of a reference that is written from parts. -/
theorem dropAnchor_text (h : p.WellFormed) : dropAnchor p.text = p.text := by
  have hhead : ∀ c ∈ p.text.head?, isNameChar c = true := by
    obtain ⟨c, cs, hname, hc⟩ := h.name.eq_cons
    rw [Parts.text]
    cases howner : p.owner with
    | none =>
      rintro _ hmem
      simp_all
    | some owner =>
      obtain ⟨d, ds, rfl, hd⟩ := (h.owner owner howner).eq_cons
      rintro _ ⟨⟩
      exact hd
  unfold dropAnchor
  split
  · next cs heq => exact absurd (hhead '&' (by rw [heq]; rfl)) (by decide)
  · rfl

theorem fullPath_parse (text : String) : (parse text).fullPath.toList = dropAnchor text.toList := by
  unfold parse
  dsimp only
  split <;> simp

theorem parse_of_text_eq {text : String} (h : p.WellFormed) (htext : p.text = dropAnchor text.toList) :
    (parse text).owner = (p.owner.map String.ofList).getD officialOwner ∧ (parse text).name = String.ofList p.name ∧
      (parse text).tag = String.ofList ((p.rest.getD []).takeWhile (· ≠ '@')) := by
  have hparts := parts?_text h
  rw [htext] at hparts
  unfold parse
  dsimp only
  split
  · next hnone =>
    rw [hparts] at hnone
    cases hnone
  · next hsome =>
    rw [hparts] at hsome
    cases hsome
    exact ⟨rfl, rfl, rfl⟩

theorem parse_of_forall_text_ne {text : String} (h : ∀ p : Parts, p.WellFormed → p.text ≠ dropAnchor text.toList) :
    (parse text).owner = officialOwner ∧ (parse text).name = "" ∧ (parse text).tag = "" := by
  unfold parse
  dsimp only
  split
  · exact ⟨rfl, rfl, rfl⟩
  · next hsome =>
    obtain ⟨p, hp, htext, -⟩ := exists_of_parts?_eq_some hsome
    exact absurd htext (h p hp)

/-- The tag in what follows the colon: all of it, or what stands before the first sign `@`. -/
def IsTagIn (rest tag : List Char) : Prop := '@' ∉ tag ∧ (rest = tag ∨ ∃ digest, rest = tag ++ '@' :: digest)

private theorem isTagIn_takeWhile (rest : List Char) : IsTagIn rest (rest.takeWhile (· ≠ '@')) := by
  have hsplit := List.takeWhile_append_dropWhile (p := (· ≠ '@')) (l := rest)
  refine ⟨fun hmem => by simpa using List.mem_takeWhile_imp hmem, ?_⟩
  cases hafter : rest.dropWhile (· ≠ '@') with
  | nil =>
    rw [hafter, List.append_nil] at hsplit
    exact .inl hsplit.symm
  | cons c digest =>
    have hc : c = '@' := by simpa using head_dropWhile (· ≠ '@') rest c (by rw [hafter]; rfl)
    rw [hafter, hc] at hsplit
    exact .inr ⟨digest, hsplit.symm⟩

/-- A reference that is written from parts gives them back. -/
theorem parse_text (h : p.WellFormed) :
    (parse (String.ofList p.text)).owner = (p.owner.map String.ofList).getD officialOwner ∧
      (parse (String.ofList p.text)).name = String.ofList p.name ∧
      (parse (String.ofList p.text)).tag = String.ofList ((p.rest.getD []).takeWhile (· ≠ '@')) :=
  parse_of_text_eq h (by rw [String.toList_ofList, dropAnchor_text h])

theorem takeWhile_of_sign_notMem (h : '@' ∉ rest) : rest.takeWhile (· ≠ '@') = rest := by
  rw [List.takeWhile_eq_self_iff]
  intro c hc
  have hne : c ≠ '@' := fun heq => h (heq ▸ hc)
  simpa using hne

/-- A text is taken apart without the anchor in front of it. If it then has the form of a reference, it has that in one
way, and its parts are found, with `library` for an owner that is left out and the tag up to a digest; else no name and
no tag are found. So parts whose rest has no sign `@` are found again in the reference that is written from them. -/
theorem parse_exact :
    (∀ text : String, (∀ path, IsBare text.toList path ↔ path = (parse text).fullPath.toList) ∧
      (∀ p : Parts, p.WellFormed → p.text = (parse text).fullPath.toList →
        (∀ q : Parts, q.WellFormed → q.text = (parse text).fullPath.toList → q = p) ∧
        (parse text).owner.toList = p.owner.getD officialOwner.toList ∧ (parse text).name.toList = p.name ∧
        IsTagIn (p.rest.getD []) (parse text).tag.toList) ∧
      ((¬∃ p : Parts, p.WellFormed ∧ p.text = (parse text).fullPath.toList) →
        (parse text).owner = officialOwner ∧ (parse text).name = "" ∧ (parse text).tag = "")) ∧
    ∀ p : Parts, p.WellFormed → '@' ∉ p.rest.getD [] →
      (parse (String.ofList p.text)).owner.toList = p.owner.getD officialOwner.toList ∧
      (parse (String.ofList p.text)).name.toList = p.name ∧
      (parse (String.ofList p.text)).tag.toList = p.rest.getD [] ∧
      (parse (String.ofList p.text)).fullPath.toList = p.text := by
  have howner (owner : Option (List Char)) :
      ((owner.map String.ofList).getD officialOwner).toList = owner.getD officialOwner.toList := by
    cases owner <;> simp
  refine ⟨fun text => ⟨fun path => ?_, fun p hp htext => ⟨fun q hq hqtext => ?_, ?_⟩, fun hnone => ?_⟩,
    fun p hp hsign => ?_⟩
  · rw [isBare_iff, fullPath_parse]
  · exact Parts.eq_of_text_eq hq hp (hqtext.trans htext.symm)
  · obtain ⟨hfound, hname, htag⟩ := parse_of_text_eq hp (htext.trans (fullPath_parse text))
    rw [hfound, hname, htag, howner, String.toList_ofList, String.toList_ofList]
    exact ⟨rfl, rfl, isTagIn_takeWhile _⟩
  · rw [fullPath_parse] at hnone
    exact parse_of_forall_text_ne fun p hp htext => hnone ⟨p, hp, htext⟩
  · obtain ⟨hfound, hname, htag⟩ := parse_text hp
    rw [hfound, hname, htag, howner, fullPath_parse, String.toList_ofList, String.toList_ofList, String.toList_ofList,
      dropAnchor_text hp, takeWhile_of_sign_notMem hsign]
    exact ⟨rfl, rfl, rfl, rfl⟩

/-- An anchor in front and a digest are left out. -/
example : parse "&image node:22.1@sha256:a1" =
    { owner := "library", name := "node", tag := "22.1", fullPath := "node:22.1@sha256:a1" } := by decide +kernel

end PipelineLint.Docker.Image
