import PipelineLint.Proofs.Text.Blank
import PipelineLint.Proofs.Text.Measure
import PipelineLint.Proofs.Text.Split
import PipelineLint.Reference
import Mathlib.Order.Nat

/-! # Where references stand

A complete reference is spelled with angle brackets, the words of its scope, a point and a name; blank characters may
stand inside the brackets. `Reference.match?` recognizes just these spellings. No reference can start inside another
one, so although the search goes on after the end of each reference that it finds, it misses none (`mem_findAll_iff`).
-/

namespace PipelineLint

namespace Reference

open Text

def spelling (scope : Scope) (before name after : List Char) : List Char :=
  "<<".toList ++ (before ++ (scope.words.toList ++ '.' :: (name ++ (after ++ ">>".toList))))

/-- The text is that of a complete reference. -/
def Spells (scope : Scope) (name whole : List Char) : Prop :=
  ∃ before after, Blanks before ∧ (∀ c ∈ name, isNameChar c = true) ∧ Blanks after ∧
    whole = spelling scope before name after

theorem trimStart_append {before rest : List Char} {c : Char} (hbefore : Blanks before) (hc : isBlank c = false) :
    trimStart (before ++ c :: rest) = c :: rest := (trimStart_eq_cons_iff hc).mpr ⟨before, hbefore, rfl⟩

theorem dropPrefix?_trimStart_eq_some_iff {start cs rest : List Char} {c : Char} (hc : isBlank c = false) :
    dropPrefix? (c :: start) (trimStart cs) = some rest ↔ ∃ before, Blanks before ∧ cs = before ++ (c :: start ++ rest) := by
  rw [dropPrefix?_eq_some_iff, List.cons_append, trimStart_eq_cons_iff hc]

/-- The start of a reference, up to the point. -/
theorem opening?_eq_some_iff {cs rest : List Char} {scope : Scope} : opening? cs = some (scope, rest) ↔
    ∃ before, Blanks before ∧ cs = "<<".toList ++ (before ++ (scope.words.toList ++ '.' :: rest)) := by
  have henclosing {inner rest : List Char} : dropPrefix? "parameters.".toList (trimStart inner) = some rest ↔
      ∃ before, Blanks before ∧ inner = before ++ (Scope.enclosing.words.toList ++ '.' :: rest) :=
    dropPrefix?_trimStart_eq_some_iff (by decide)
  have hpipeline {inner rest : List Char} : dropPrefix? "pipeline.parameters.".toList (trimStart inner) = some rest ↔
      ∃ before, Blanks before ∧ inner = before ++ (Scope.pipeline.words.toList ++ '.' :: rest) :=
    dropPrefix?_trimStart_eq_some_iff (by decide)
  constructor
  · intro hopening
    obtain ⟨inner, hinner, h⟩ := Option.bind_eq_some_iff.mp hopening
    obtain rfl := dropPrefix?_eq_some_iff.mp hinner
    dsimp only at h
    split at h
    · rename_i hrest
      obtain ⟨rfl, rfl⟩ := Prod.mk.inj (Option.some.inj h)
      obtain ⟨before, hbefore, rfl⟩ := henclosing.mp hrest
      exact ⟨before, hbefore, rfl⟩
    · obtain ⟨rest', hrest, h⟩ := Option.bind_eq_some_iff.mp h
      obtain ⟨rfl, rfl⟩ := Prod.mk.inj (Option.some.inj h)
      obtain ⟨before, hbefore, rfl⟩ := hpipeline.mp hrest
      exact ⟨before, hbefore, rfl⟩
  · rintro ⟨before, hbefore, rfl⟩
    rw [opening?, dropPrefix?_eq_some_iff.mpr rfl]
    cases scope with
    | enclosing =>
      simp only [Option.bind_eq_bind, Option.bind_some, henclosing.mpr ⟨before, hbefore, rfl⟩, Option.pure_def]
    | pipeline =>
      have hnone : dropPrefix? "parameters.".toList (trimStart (before ++ (Scope.pipeline.words.toList ++ '.' :: rest))) =
          none := by
        have htrim : trimStart (before ++ (Scope.pipeline.words.toList ++ '.' :: rest)) =
            Scope.pipeline.words.toList ++ '.' :: rest := trimStart_append hbefore (by decide)
        rw [htrim]
        rfl
      simp only [Option.bind_eq_bind, Option.bind_some, hnone, hpipeline.mpr ⟨before, hbefore, rfl⟩, Option.pure_def]

/-- No character of names is blank. -/
theorem isBlank_eq_false_of_isNameChar {c : Char} (h : isNameChar c = true) : isBlank c = false := by
  have hcode : c.toNat = 45 ∨ 48 ≤ c.toNat ∧ c.toNat ≤ 57 ∨ 65 ≤ c.toNat ∧ c.toNat ≤ 90 ∨ c.toNat = 95 ∨
      97 ≤ c.toNat ∧ c.toNat ≤ 122 := by
    have hspans : (((decide (c.val ≥ 65 ∧ c.val ≤ 90) || c.val ≥ 97 && c.val ≤ 122) || c.val ≥ 48 && c.val ≤ 57) ||
        c == '_' || c == '-') = true := h
    simp only [Bool.or_eq_true, Bool.and_eq_true, decide_eq_true_eq, beq_iff_eq, ge_iff_le,
      UInt32.le_iff_toNat_le] at hspans
    rcases hspans with (((h | h) | h) | rfl) | rfl
    · exact .inr (.inr (.inl h))
    · exact .inr (.inr (.inr (.inr h)))
    · exact .inr (.inl h)
    · exact .inr (.inr (.inr (.inl rfl)))
    · exact .inl rfl
  simp only [isBlank]
  generalize c.toNat = n at hcode
  simp only [Bool.or_eq_false_iff, Bool.and_eq_false_iff, decide_eq_false_iff_not, beq_eq_false_iff_ne]
  omega

/-- After a name come blank characters or the end of the reference. -/
theorem span_name (rest : List Char) {name after : List Char} (hname : ∀ c ∈ name, isNameChar c = true)
    (hafter : Blanks after) :
    (name ++ (after ++ '>' :: rest)).takeWhile isNameChar = name ∧
      (name ++ (after ++ '>' :: rest)).dropWhile isNameChar = after ++ '>' :: rest := by
  have hend : ∀ c ∈ (after ++ '>' :: rest).head?, isNameChar c = false := by
    intro c hc
    cases after with
    | nil =>
      obtain rfl := Option.some.inj hc
      rfl
    | cons d after =>
      obtain rfl := Option.some.inj hc
      by_contra hnot
      rw [Bool.not_eq_false] at hnot
      have hblank := hafter d List.mem_cons_self
      rw [isBlank_eq_false_of_isNameChar hnot] at hblank
      cases hblank
  rw [List.takeWhile_append_of_pos hname, List.dropWhile_append_of_pos hname]
  cases hfollow : after ++ '>' :: rest with
  | nil => simp at hfollow
  | cons c cs =>
    have hc := hend c (by rw [hfollow]; rfl)
    simp [hc]

theorem match?_eq_some_iff {cs : List Char} {m : Match} :
    match? cs = some m ↔ cs = m.whole ++ m.rest ∧ Spells m.scope m.name m.whole := by
  constructor
  · intro h
    obtain ⟨⟨scope, named⟩, hopening, h⟩ := Option.bind_eq_some_iff.mp h
    obtain ⟨before, hbefore, rfl⟩ := opening?_eq_some_iff.mp hopening
    obtain ⟨rest, hrest, h⟩ := Option.bind_eq_some_iff.mp h
    obtain rfl := Option.some.inj h
    obtain ⟨after, hafter, hend⟩ : ∃ after, Blanks after ∧
        named.dropWhile isNameChar = after ++ '>' :: '>' :: rest :=
      (dropPrefix?_trimStart_eq_some_iff (by decide)).mp hrest
    have hnamed : named.takeWhile isNameChar ++ (after ++ '>' :: '>' :: rest) = named := by
      rw [← hend, List.takeWhile_append_dropWhile]
    have hwhole : "<<".toList ++ (before ++ (scope.words.toList ++ '.' :: named)) =
        spelling scope before (named.takeWhile isNameChar) after ++ rest := by
      conv_lhs => rw [← hnamed]
      simp [spelling]
    have hname : ∀ c ∈ named.takeWhile isNameChar, isNameChar c = true := List.all_eq_true.mp List.all_takeWhile
    dsimp only
    rw [hwhole, List.length_append, Nat.add_sub_cancel, List.take_left]
    exact ⟨rfl, before, after, hbefore, hname, hafter, rfl⟩
  · obtain ⟨scope, name, whole, rest⟩ := m
    rintro ⟨rfl, before, after, hbefore, hname, hafter, hwhole⟩
    dsimp only at hwhole hname ⊢
    subst hwhole
    obtain ⟨htake, hdrop⟩ := span_name ('>' :: rest) hname hafter
    have hopening : opening? (spelling scope before name after ++ rest) =
        some (scope, name ++ (after ++ '>' :: '>' :: rest)) :=
      opening?_eq_some_iff.mpr ⟨before, hbefore, by simp [spelling]⟩
    have hrest : dropPrefix? ">>".toList (trimStart (after ++ '>' :: '>' :: rest)) = some rest :=
      (dropPrefix?_trimStart_eq_some_iff (by decide)).mpr ⟨after, hafter, rfl⟩
    have hwhole : (spelling scope before name after ++ rest).take
        ((spelling scope before name after ++ rest).length - rest.length) = spelling scope before name after := by
      rw [List.length_append, Nat.add_sub_cancel, List.take_left]
    simp only [match?, hopening, Option.bind_eq_bind, Option.bind_some, hdrop, hrest, htake, hwhole, Option.pure_def]

/-- A reference starts with two opening brackets and has no further one. -/
theorem Spells.eq_cons {scope : Scope} {name whole : List Char} (h : Spells scope name whole) :
    ∃ body, whole = '<' :: '<' :: body ∧ body ≠ [] ∧ '<' ∉ body := by
  obtain ⟨before, after, hbefore, hname, hafter, rfl⟩ := h
  have hblanks {cs : List Char} (hcs : Blanks cs) : '<' ∉ cs := fun h => absurd (hcs _ h) (by decide)
  have hwords : '<' ∉ scope.words.toList := by cases scope <;> decide
  have hnamed : '<' ∉ name := fun h => absurd (hname _ h) (by decide)
  refine ⟨_, rfl, by simp, ?_⟩
  simp [hblanks hbefore, hblanks hafter, hwords, hnamed]

theorem eq_cons_of_match?_eq_some {cs : List Char} {m : Match} (h : match? cs = some m) :
    ∃ rest, cs = '<' :: '<' :: rest := by
  obtain ⟨rfl, hspells⟩ := match?_eq_some_iff.mp h
  obtain ⟨body, hwhole, -⟩ := hspells.eq_cons
  exact ⟨body ++ m.rest, by rw [hwhole]; rfl⟩

theorem match?_drop_eq_none {cs : List Char} {m : Match} {n : Nat} (h : match? cs = some m) (hpos : 0 < n)
    (hn : n < m.whole.length) : match? (cs.drop n) = none := by
  by_contra hmatch
  obtain ⟨m', hm'⟩ := Option.ne_none_iff_exists'.mp hmatch
  obtain ⟨rest, hrest⟩ := eq_cons_of_match?_eq_some hm'
  obtain ⟨rfl, hspells⟩ := match?_eq_some_iff.mp h
  obtain ⟨body, hwhole, hne, hbody⟩ := hspells.eq_cons
  rw [hwhole] at hrest hn
  obtain ⟨c, cs, rfl⟩ := List.exists_cons_of_ne_nil hne
  match n with
  | 1 =>
    have hc : c = '<' := (List.cons.inj (List.cons.inj hrest).2).1
    exact hbody (hc ▸ List.mem_cons_self)
  | k + 2 =>
    have hk : k < (c :: cs).length := by simpa using hn
    have hdrop : (c :: cs).drop k ++ m.rest = '<' :: '<' :: rest := by
      rw [← List.drop_append_of_le_length (Nat.le_of_lt hk)]
      exact hrest
    have hlen : (c :: cs).drop k ≠ [] := by simpa [List.drop_eq_nil_iff] using hk
    obtain ⟨d, ds, hds⟩ := List.exists_cons_of_ne_nil hlen
    rw [hds] at hdrop
    have hd : d = '<' := (List.cons.inj hdrop).1
    exact hbody (hd ▸ List.mem_of_mem_drop (hds ▸ List.mem_cons_self))

def ofMatch (offset : Nat) (m : Match) : Reference :=
  ⟨String.ofList (pathAndName m.whole).2, String.ofList (pathAndName m.whole).1, m.scope, offset,
    offset + byteLength m.whole⟩

/-- The references that start at any character of a text. -/
def everywhere (offset : Nat) : List Char → List Reference
  | [] => []
  | c :: cs => ((match? (c :: cs)).map (ofMatch offset)).toList ++ everywhere (offset + c.utf8Size) cs

/-- Where no reference starts among the characters that a search passes over, it finds all references. -/
theorem go_eq_everywhere (cs : List Char) (skip offset : Nat) (hskip : ∀ n < skip, match? (cs.drop n) = none) :
    findAll.go skip offset cs = everywhere offset cs := by
  induction cs generalizing skip offset with
  | nil =>
    rw [findAll.go]
    rfl
  | cons c cs ih =>
    cases skip with
    | succ skip =>
      have hnone : match? (c :: cs) = none := hskip 0 (Nat.succ_pos skip)
      rw [findAll.go, everywhere, hnone, ih skip _ fun n hn => hskip (n + 1) (Nat.succ_lt_succ hn)]
      rfl
    | zero =>
      rw [findAll.go, everywhere]
      cases hmatch : match? (c :: cs) with
      | none =>
        dsimp only
        rw [ih 0 _ nofun]
        rfl
      | some m =>
        have hinside : ∀ n < m.whole.length - 1, match? (cs.drop n) = none := fun n hn =>
          match?_drop_eq_none (n := n + 1) hmatch (Nat.succ_pos n) (by omega)
        dsimp only
        rw [ih _ _ hinside]
        rfl

theorem findAll_eq_everywhere (cs : List Char) : findAll cs = everywhere 0 cs := go_eq_everywhere cs 0 0 nofun

theorem mem_everywhere_iff {cs : List Char} {offset : Nat} {r : Reference} : r ∈ everywhere offset cs ↔
    ∃ before rest m, cs = before ++ rest ∧ match? rest = some m ∧ r = ofMatch (offset + byteLength before) m := by
  induction cs generalizing offset with
  | nil =>
    constructor
    · exact nofun
    · rintro ⟨before, rest, m, hcs, hmatch, -⟩
      obtain ⟨tail, rfl⟩ := eq_cons_of_match?_eq_some hmatch
      simp at hcs
  | cons c cs ih =>
    rw [everywhere, List.mem_append, ih]
    constructor
    · rintro (h | ⟨before, rest, m, rfl, hmatch, rfl⟩)
      · rw [Option.mem_toList, Option.map_eq_some_iff] at h
        obtain ⟨m, hmatch, rfl⟩ := h
        exact ⟨[], _, m, rfl, hmatch, rfl⟩
      · exact ⟨c :: before, rest, m, rfl, hmatch, by rw [byteLength_cons, Nat.add_assoc]⟩
    · rintro ⟨before, rest, m, hcs, hmatch, rfl⟩
      cases before with
      | nil =>
        obtain rfl : c :: cs = rest := hcs
        exact .inl (by rw [hmatch]; exact List.mem_singleton_self _)
      | cons d before =>
        obtain ⟨rfl, rfl⟩ := List.cons.inj hcs
        exact .inr ⟨before, rest, m, rfl, hmatch, by rw [byteLength_cons, Nat.add_assoc]⟩

/-- A reference stands in a text and is spelled there as `whole`; its name is what is told of that text. -/
structure Occurs (cs whole : List Char) (r : Reference) : Prop where
  spells : ∃ name, Spells r.scope name whole
  placed : ∃ before after, cs = before ++ (whole ++ after) ∧ r.start = byteLength before
  stop_eq : r.stop = r.start + byteLength whole
  named : r.fullName = String.ofList (pathAndName whole).1 ∧ r.name = String.ofList (pathAndName whole).2

/-- All references of a text are found, and nothing else. -/
theorem mem_findAll_iff {cs : List Char} {r : Reference} : r ∈ findAll cs ↔ ∃ whole, Occurs cs whole r := by
  rw [findAll_eq_everywhere, mem_everywhere_iff]
  constructor
  · rintro ⟨before, rest, m, rfl, hmatch, rfl⟩
    obtain ⟨rfl, hspells⟩ := match?_eq_some_iff.mp hmatch
    exact ⟨m.whole, ⟨m.name, hspells⟩, ⟨before, m.rest, rfl, Nat.zero_add _⟩, rfl, rfl, rfl⟩
  · rintro ⟨whole, ⟨name, hspells⟩, ⟨before, after, rfl, hstart⟩, hstop, hfull, hname⟩
    refine ⟨before, whole ++ after, ⟨r.scope, name, whole, after⟩, rfl, match?_eq_some_iff.mpr ⟨rfl, hspells⟩, ?_⟩
    obtain ⟨rname, full, scope, start, stop⟩ := r
    dsimp only at hstart hstop hfull hname
    rw [ofMatch, Nat.zero_add, ← hstart, ← hstop, ← hfull, ← hname]

/-- The references of a text stand one after the other. -/
theorem pairwise_everywhere (offset : Nat) (cs : List Char) :
    (everywhere offset cs).Pairwise fun r r' => r.stop ≤ r'.start := by
  induction cs generalizing offset with
  | nil => exact .nil
  | cons c cs ih =>
    rw [everywhere, List.pairwise_append]
    refine ⟨?_, ih _, fun r hr r' hr' => ?_⟩
    · cases match? (c :: cs) <;> simp
    · rw [Option.mem_toList, Option.map_eq_some_iff] at hr
      obtain ⟨m, hmatch, rfl⟩ := hr
      obtain ⟨before, rest, m', rfl, hmatch', rfl⟩ := mem_everywhere_iff.mp hr'
      obtain ⟨hwhole, -⟩ := match?_eq_some_iff.mp hmatch
      have hlength : m.whole.length ≤ (c :: before).length := by
        by_contra hlt
        have hnone := match?_drop_eq_none (n := (c :: before).length) hmatch (Nat.succ_pos _) (by omega)
        rw [← List.cons_append, List.drop_left, hmatch'] at hnone
        cases hnone
      obtain ⟨between, hbefore⟩ : m.whole <+: c :: before :=
        List.prefix_of_prefix_length_le ⟨m.rest, hwhole.symm⟩ ⟨rest, rfl⟩ hlength
      have hbytes := congrArg byteLength hbefore
      rw [byteLength_append, byteLength_cons] at hbytes
      change offset + byteLength m.whole ≤ offset + c.utf8Size + byteLength before
      omega

theorem pairwise_findAll (cs : List Char) : (findAll cs).Pairwise fun r r' => r.stop ≤ r'.start := by
  rw [findAll_eq_everywhere]
  exact pairwise_everywhere 0 cs

theorem mem_of_isOnly {text : String} (h : isOnly text = true) : '<' ∈ text.toList := by
  unfold isOnly at h
  split at h
  · next found hmatch =>
    obtain ⟨rest, hrest⟩ := eq_cons_of_match?_eq_some hmatch
    exact hrest ▸ List.mem_cons_self
  · cases h

theorem exists_of_anySuffix {p : List Char → Bool} {cs : List Char} (h : anySuffix p cs = true) :
    ∃ before rest, cs = before ++ rest ∧ p rest = true := by
  induction cs with
  | nil => exact ⟨[], [], rfl, h⟩
  | cons c cs ih =>
    rcases Bool.or_eq_true_iff.mp h with h | h
    · exact ⟨[], c :: cs, rfl, h⟩
    · obtain ⟨before, rest, rfl, hrest⟩ := ih h
      exact ⟨c :: before, rest, rfl, hrest⟩

theorem mem_of_hasSubstitution {text : String} (h : hasSubstitution text = true) : '<' ∈ text.toList := by
  obtain ⟨before, rest, hcs, hstarts⟩ := exists_of_anySuffix h
  unfold startsSubstitution at hstarts
  split at hstarts
  · next inner hinner =>
    obtain rfl := Text.dropPrefix?_eq_some_iff.mp hinner
    simp [hcs]
  · cases hstarts

end Reference

end PipelineLint
