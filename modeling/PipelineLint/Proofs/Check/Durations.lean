import Mathlib.Algebra.GroupWithZero.Nat
import PipelineLint.Check.Run
import PipelineLint.Proofs.Text.Integer

/-! # Durations

A duration is written as groups: digits, and the letter of a unit behind them. It is read character by character, and
what is known after a first part of it are the groups that are complete there, in seconds, and the digits after them
(`read_eq_some_iff`). So a text is read just if it is made of groups whose seconds fit 64 bits
(`duration?_eq_some_iff`). A delay before a rerun is besides written as one group of a number without extra zeros.

The same reading with words of 64 bits, where products and sums start again from zero past the last word. Each is
taken only if the exact number fits.
-/

namespace PipelineLint.Check

open Text

inductive TimeUnit where
  | hour | minute | second
  deriving DecidableEq, Repr

namespace TimeUnit

def letter : TimeUnit → Char
  | .hour => 'h'
  | .minute => 'm'
  | .second => 's'

def seconds : TimeUnit → Nat
  | .hour => 3600
  | .minute => 60
  | .second => 1

theorem isDigit_letter (u : TimeUnit) : u.letter.isDigit = false := by cases u <;> rfl

private theorem letter_injective {u u' : TimeUnit} (h : u.letter = u'.letter) : u = u' := by
  cases u <;> cases u' <;> first | rfl | cases h

private theorem seconds_lt (u : TimeUnit) : u.seconds < 2 ^ 64 := by cases u <;> decide

end TimeUnit

structure TimeGroup where
  digits : List Char
  unit : TimeUnit
  isDigit : ∀ d ∈ digits, d.isDigit = true
  ne_nil : digits ≠ []

namespace TimeGroup

def text (g : TimeGroup) : List Char := g.digits ++ [g.unit.letter]

def seconds (g : TimeGroup) : Nat := ofDigits g.digits * g.unit.seconds

end TimeGroup

def durationText (groups : List TimeGroup) : List Char := groups.flatMap TimeGroup.text

def totalSeconds (groups : List TimeGroup) : Nat := (groups.map TimeGroup.seconds).sum

theorem durationText_concat (groups : List TimeGroup) (g : TimeGroup) :
    durationText (groups ++ [g]) = durationText groups ++ g.digits ++ [g.unit.letter] := by
  simp [durationText, TimeGroup.text]

theorem durationText_eq_nil_iff {groups : List TimeGroup} : durationText groups = [] ↔ groups = [] := by
  cases groups <;> simp [durationText, TimeGroup.text]

theorem totalSeconds_concat (groups : List TimeGroup) (g : TimeGroup) :
    totalSeconds (groups ++ [g]) = totalSeconds groups + ofDigits g.digits * g.unit.seconds := by
  simp [totalSeconds, TimeGroup.seconds]

theorem secondsOfUnit?_eq_some_iff {c : Char} {n : Nat} :
    secondsOfUnit? c = some n ↔ ∃ u : TimeUnit, u.letter = c ∧ u.seconds = n := by
  constructor
  · intro h
    rw [secondsOfUnit?.eq_def] at h
    split at h
    · exact ⟨.hour, rfl, Option.some.inj h⟩
    · exact ⟨.minute, rfl, Option.some.inj h⟩
    · exact ⟨.second, rfl, Option.some.inj h⟩
    · cases h
  · rintro ⟨u, rfl, rfl⟩
    cases u <;> rfl

/-- What is known after a first part of a duration: the seconds of its groups, and the digits after them. -/
structure DurationState where
  total : Nat := 0
  digits : List Char := []
  deriving DecidableEq, Repr

namespace DurationState

def step (s : DurationState) (c : Char) : Option DurationState :=
  if c.isDigit then some { s with digits := s.digits ++ [c] }
  else do
    let unit ← secondsOfUnit? c
    let amount ← unsigned? 64 s.digits
    if s.total + amount * unit < 2 ^ 64 then some { total := s.total + amount * unit } else none

/-- The seconds at the end of a duration. No digits are left over. -/
def finish? (s : DurationState) : Option Nat := if s.digits.isEmpty then some s.total else none

end DurationState

theorem durationFrom_eq (total : Nat) (digits cs : List Char) :
    durationFrom total digits cs = (cs.foldlM DurationState.step ⟨total, digits⟩).bind DurationState.finish? := by
  induction cs generalizing total digits with
  | nil => rfl
  | cons c cs ih =>
    rw [durationFrom, List.foldlM_cons, DurationState.step, Nat.pow_eq]
    by_cases hc : c.isDigit
    · simp only [hc, if_true, ih]
      rfl
    · simp only [hc, if_false, Bool.false_eq_true]
      cases secondsOfUnit? c with
      | none => rfl
      | some unit =>
        cases unsigned? 64 digits with
        | none => rfl
        | some amount =>
          simp only [Option.bind_eq_bind, Option.bind_some]
          split
          · rw [ih, Option.bind_some]
          · rfl

/-- The groups and the digits after them that a state stands for after a first part of a duration. -/
structure DurationState.Reads (cs : List Char) (s : DurationState) : Prop where
  groups : ∃ groups, cs = durationText groups ++ s.digits ∧ totalSeconds groups = s.total
  isDigit : ∀ d ∈ s.digits, d.isDigit = true
  fits : s.total < 2 ^ 64

/-- A character of a duration goes to the digits, or ends a group that fits. -/
theorem DurationState.step_eq_some_iff {s s' : DurationState} {c : Char} (hdigits : ∀ d ∈ s.digits, d.isDigit = true) :
    s.step c = some s' ↔ c.isDigit = true ∧ s' = { s with digits := s.digits ++ [c] } ∨
      ∃ u : TimeUnit, u.letter = c ∧ s.digits ≠ [] ∧ s' = { total := s.total + ofDigits s.digits * u.seconds } ∧
        s'.total < 2 ^ 64 := by
  rw [step]
  by_cases hc : c.isDigit
  · have hletter (u : TimeUnit) : u.letter ≠ c := by
      rintro rfl
      rw [u.isDigit_letter] at hc
      cases hc
    simp [hc, hletter, eq_comm]
  · simp only [hc, if_false, Bool.false_eq_true, false_and, false_or, Option.bind_eq_bind, Option.bind_eq_some_iff,
      secondsOfUnit?_eq_some_iff, unsigned?_eq_some_iff hdigits, Option.ite_none_right_eq_some, Option.some.injEq]
    constructor
    · rintro ⟨_, ⟨u, hu, rfl⟩, _, ⟨hne, rfl, -⟩, hlt, rfl⟩
      exact ⟨u, hu, hne, rfl, hlt⟩
    · rintro ⟨u, hu, hne, rfl, hlt⟩
      have hamount : ofDigits s.digits < 2 ^ 64 := by
        have hunit : 0 < u.seconds := by cases u <;> decide
        have hle := Nat.le_mul_of_pos_right (ofDigits s.digits) hunit
        dsimp only at hlt
        omega
      exact ⟨_, ⟨u, hu, rfl⟩, _, ⟨hne, rfl, hamount⟩, hlt, rfl⟩

/-- Only the state at the start stands for no characters. -/
theorem DurationState.reads_nil_iff {s : DurationState} : s.Reads [] ↔ s = {} := by
  constructor
  · rintro ⟨⟨groups, htext, htotal⟩, -, -⟩
    obtain ⟨hgroups, hdigits⟩ := List.append_eq_nil_iff.mp htext.symm
    obtain rfl := durationText_eq_nil_iff.mp hgroups
    obtain ⟨total, digits⟩ := s
    obtain rfl : digits = [] := hdigits
    obtain rfl : 0 = total := htotal
    rfl
  · rintro rfl
    exact ⟨⟨[], rfl, rfl⟩, List.forall_mem_nil _, Nat.two_pow_pos 64⟩

/-- One further character leads to a state that stands for it as well. -/
theorem DurationState.Reads.step {cs : List Char} {c : Char} {s s' : DurationState} (h : s.Reads cs)
    (hstep : s.step c = some s') : s'.Reads (cs ++ [c]) := by
  obtain ⟨⟨groups, rfl, htotal⟩, hdigits, hfits⟩ := h
  rcases (step_eq_some_iff hdigits).mp hstep with ⟨hc, rfl⟩ | ⟨u, rfl, hne, rfl, hlt⟩
  · exact ⟨⟨groups, List.append_assoc _ _ _, htotal⟩,
      List.forall_mem_append.mpr ⟨hdigits, List.forall_mem_singleton.mpr hc⟩, hfits⟩
  · refine ⟨⟨groups ++ [⟨s.digits, u, hdigits, hne⟩], ?_, ?_⟩, List.forall_mem_nil _, hlt⟩
    · rw [durationText_concat, List.append_nil]
    · rw [totalSeconds_concat, htotal]

/-- A state after one further character comes from one before it. -/
theorem DurationState.Reads.exists_step {cs : List Char} {c : Char} {s' : DurationState} (h : s'.Reads (cs ++ [c])) :
    ∃ s, Reads cs s ∧ s.step c = some s' := by
  obtain ⟨total, digits⟩ := s'
  obtain ⟨⟨groups, htext, htotal⟩, hdigits, hfits⟩ := h
  dsimp only at htext htotal hdigits hfits
  rcases List.eq_nil_or_concat' digits with rfl | ⟨digits, d, rfl⟩
  · rw [List.append_nil] at htext
    rcases List.eq_nil_or_concat' groups with rfl | ⟨groups, g, rfl⟩
    · simp [durationText] at htext
    rw [durationText_concat] at htext
    obtain ⟨rfl, hletter⟩ := List.append_inj' htext rfl
    rw [totalSeconds_concat] at htotal
    refine ⟨⟨totalSeconds groups, g.digits⟩, ⟨⟨groups, rfl, rfl⟩, g.isDigit, by dsimp only; omega⟩, ?_⟩
    refine (step_eq_some_iff g.isDigit).mpr (.inr ⟨g.unit, ?_, g.ne_nil, ?_, hfits⟩)
    · exact (List.singleton_inj.mp hletter).symm
    · rw [htotal]
  · rw [← List.append_assoc] at htext
    obtain ⟨rfl, hlast⟩ := List.append_inj' htext rfl
    obtain rfl := List.singleton_inj.mp hlast
    obtain ⟨hdigits, hc⟩ := List.forall_mem_append.mp hdigits
    refine ⟨⟨total, digits⟩, ⟨⟨groups, rfl, htotal⟩, hdigits, hfits⟩, ?_⟩
    exact (step_eq_some_iff hdigits).mpr (.inl ⟨hc c List.mem_cons_self, rfl⟩)

/-- Reading a first part of a duration leads to the state that stands for it, and fails just where there is none. -/
theorem read_eq_some_iff {cs : List Char} {s : DurationState} :
    cs.foldlM DurationState.step {} = some s ↔ s.Reads cs := by
  induction cs using List.reverseRecOn generalizing s with
  | nil => rw [DurationState.reads_nil_iff, List.foldlM_nil, Option.pure_def, Option.some.injEq, eq_comm]
  | append_singleton cs c ih =>
    rw [List.foldlM_append, Option.bind_eq_bind, Option.bind_eq_some_iff]
    simp only [ih, List.foldlM_cons, List.foldlM_nil, Option.bind_eq_bind, Option.pure_def, Option.bind_fun_some]
    constructor
    · rintro ⟨before, hbefore, hstep⟩
      exact hbefore.step hstep
    · exact DurationState.Reads.exists_step

/-- A text is a duration of some seconds just if it is made of groups of that many seconds, which fit 64 bits. -/
theorem duration?_eq_some_iff {cs : List Char} {n : Nat} : duration? cs = some n ↔
    ∃ groups, groups ≠ [] ∧ cs = durationText groups ∧ totalSeconds groups = n ∧ n < 2 ^ 64 := by
  rw [duration?, durationFrom_eq, Option.ite_none_left_eq_some, List.isEmpty_iff, Option.bind_eq_some_iff]
  constructor
  · rintro ⟨hne, s, hs, hfinish⟩
    obtain ⟨⟨groups, rfl, htotal⟩, -, hfits⟩ := read_eq_some_iff.mp hs
    obtain ⟨hnil, hn⟩ := Option.ite_none_right_eq_some.mp hfinish
    obtain rfl := Option.some.inj hn
    rw [List.isEmpty_iff.mp hnil, List.append_nil] at hne ⊢
    exact ⟨groups, mt durationText_eq_nil_iff.mpr hne, rfl, htotal, hfits⟩
  · rintro ⟨groups, hne, rfl, rfl, hfits⟩
    refine ⟨mt durationText_eq_nil_iff.mp hne, ⟨totalSeconds groups, []⟩, ?_, rfl⟩
    exact read_eq_some_iff.mpr ⟨⟨groups, (List.append_nil _).symm, rfl⟩, List.forall_mem_nil _, hfits⟩

/-- One group is read as its seconds, if they fit. -/
theorem duration?_text_eq_some_iff {g : TimeGroup} {n : Nat} :
    duration? g.text = some n ↔ g.seconds = n ∧ n < 2 ^ 64 := by
  constructor
  · intro h
    have hdigits : g.digits.foldlM DurationState.step {} = some ⟨0, g.digits⟩ :=
      read_eq_some_iff.mpr ⟨⟨[], rfl, rfl⟩, g.isDigit, Nat.two_pow_pos 64⟩
    rw [duration?, durationFrom_eq, Option.ite_none_left_eq_some, TimeGroup.text, List.foldlM_append, hdigits] at h
    obtain ⟨s, hs, hfinish⟩ := Option.bind_eq_some_iff.mp h.2
    simp only [Option.bind_eq_bind, Option.bind_some, List.foldlM_cons, List.foldlM_nil, Option.pure_def,
      Option.bind_fun_some] at hs
    rcases (DurationState.step_eq_some_iff g.isDigit).mp hs with ⟨hletter, -⟩ | ⟨u, hletter, -, rfl, hlt⟩
    · rw [g.unit.isDigit_letter] at hletter
      cases hletter
    · obtain rfl := Option.some.inj hfinish
      refine ⟨?_, hlt⟩
      rw [TimeGroup.seconds, ← TimeUnit.letter_injective hletter, Nat.zero_add]
  · rintro ⟨rfl, hfits⟩
    exact duration?_eq_some_iff.mpr
      ⟨[g], List.cons_ne_nil _ _, (List.flatMap_singleton _ g).symm, Nat.add_zero _, hfits⟩

/-- The product of two words, if it is exact. -/
def checkedMul (x y : UInt64) : Option UInt64 := if x.toNat * y.toNat < 2 ^ 64 then some (x * y) else none

/-- The sum of two words, if it is exact. -/
def checkedAdd (x y : UInt64) : Option UInt64 := if x.toNat + y.toNat < 2 ^ 64 then some (x + y) else none

theorem checkedMul_eq_some_iff {x y z : UInt64} : checkedMul x y = some z ↔ z.toNat = x.toNat * y.toNat := by
  rw [checkedMul, Option.ite_none_right_eq_some, Option.some.injEq]
  constructor
  · rintro ⟨hlt, rfl⟩
    rw [UInt64.toNat_mul, Nat.mod_eq_of_lt hlt]
  · intro hz
    have hlt : x.toNat * y.toNat < 2 ^ 64 := hz ▸ z.toNat_lt
    exact ⟨hlt, UInt64.toNat_inj.mp (by rw [UInt64.toNat_mul, Nat.mod_eq_of_lt hlt, hz])⟩

theorem checkedAdd_eq_some_iff {x y z : UInt64} : checkedAdd x y = some z ↔ z.toNat = x.toNat + y.toNat := by
  rw [checkedAdd, Option.ite_none_right_eq_some, Option.some.injEq]
  constructor
  · rintro ⟨hlt, rfl⟩
    rw [UInt64.toNat_add, Nat.mod_eq_of_lt hlt]
  · intro hz
    have hlt : x.toNat + y.toNat < 2 ^ 64 := hz ▸ z.toNat_lt
    exact ⟨hlt, UInt64.toNat_inj.mp (by rw [UInt64.toNat_add, Nat.mod_eq_of_lt hlt, hz])⟩

/-- What is known after a first part of a duration, in words. -/
structure DurationWords where
  total : UInt64 := 0
  digits : List Char := []
  deriving DecidableEq, Repr

namespace DurationWords

def step (s : DurationWords) (c : Char) : Option DurationWords :=
  if c.isDigit then some { s with digits := s.digits ++ [c] }
  else do
    let unit ← secondsOfUnit? c
    let amount ← unsigned? 64 s.digits
    let seconds ← checkedMul (.ofNat amount) (.ofNat unit)
    let total ← checkedAdd s.total seconds
    some { total }

def exact (s : DurationWords) : DurationState := ⟨s.total.toNat, s.digits⟩

private theorem map_exact_step (s : DurationWords) (c : Char) : (s.step c).map exact = s.exact.step c := by
  have hstate : s.exact = ⟨s.total.toNat, s.digits⟩ := rfl
  rw [step, hstate, DurationState.step]
  by_cases hc : c.isDigit
  · simp only [hc, if_true]
    rfl
  simp only [hc, if_false, Bool.false_eq_true, Option.bind_eq_bind, Option.map_bind, Function.comp_def]
  refine Option.bind_congr fun unit hunit => Option.bind_congr fun amount hamount => Option.ext fun t => ?_
  obtain ⟨u, -, rfl⟩ := secondsOfUnit?_eq_some_iff.mp hunit
  have hamount := lt_of_unsigned?_eq_some hamount
  simp only [Option.bind_eq_some_iff, Option.map_some, checkedMul_eq_some_iff, checkedAdd_eq_some_iff,
    UInt64.toNat_ofNat_of_lt' hamount, UInt64.toNat_ofNat_of_lt' u.seconds_lt, Option.ite_none_right_eq_some,
    Option.some.injEq]
  constructor
  · rintro ⟨product, hproduct, total, htotal, rfl⟩
    rw [hproduct] at htotal
    exact ⟨htotal ▸ total.toNat_lt, by rw [exact, htotal]⟩
  · rintro ⟨hsum, rfl⟩
    have hproduct : amount * u.seconds < 2 ^ 64 := Nat.lt_of_le_of_lt (Nat.le_add_left _ _) hsum
    have htotal := UInt64.toNat_ofNat_of_lt' hsum
    refine ⟨_, UInt64.toNat_ofNat_of_lt' hproduct, .ofNat (s.total.toNat + amount * u.seconds), ?_, ?_⟩
    · rw [htotal, UInt64.toNat_ofNat_of_lt' hproduct]
    · rw [exact, htotal]

private theorem map_exact_read (s : DurationWords) (cs : List Char) :
    (cs.foldlM step s).map exact = cs.foldlM DurationState.step s.exact := by
  induction cs generalizing s with
  | nil => rfl
  | cons c cs ih =>
    rw [List.foldlM_cons, List.foldlM_cons, ← map_exact_step]
    cases s.step c with
    | none => rfl
    | some s' => exact ih s'

end DurationWords

def durationWord? (cs : List Char) : Option UInt64 :=
  if cs.isEmpty then none
  else (cs.foldlM DurationWords.step {}).bind fun s => if s.digits.isEmpty then some s.total else none

/-- In words no product and no sum goes beyond the last word: what is read is what is read in numbers. -/
theorem map_toNat_durationWord? (cs : List Char) : (durationWord? cs).map UInt64.toNat = duration? cs := by
  rw [durationWord?, duration?, durationFrom_eq]
  split
  · rfl
  · have hread : cs.foldlM DurationState.step ⟨0, []⟩ = (cs.foldlM DurationWords.step {}).map DurationWords.exact :=
      (DurationWords.map_exact_read {} cs).symm
    rw [hread]
    cases cs.foldlM DurationWords.step {} with
    | none => rfl
    | some s =>
      simp only [Option.bind_some, Option.map_some, DurationState.finish?, DurationWords.exact]
      split <;> rfl

def TimeGroup.ofNat (k : Nat) (unit : TimeUnit) : TimeGroup :=
  ⟨Nat.toDigits 10 k, unit, fun _ => isDigit_of_mem_toDigits _, Nat.toDigits_ne_nil⟩

private theorem TimeGroup.seconds_ofNat (k : Nat) (unit : TimeUnit) : (ofNat k unit).seconds = k * unit.seconds := by
  rw [seconds, ofNat, ofDigits_toDigits]

/-- A number without zeros in front is a positive one. -/
theorem isCount_iff {cs : List Char} : isCount cs = true ↔ ∃ k, 1 ≤ k ∧ cs = Nat.toDigits 10 k := by
  rw [isCount, Bool.and_eq_true, Bool.and_eq_true, List.all_eq_true, Bool.not_eq_true', List.isEmpty_eq_false_iff,
    bne_iff_ne]
  constructor
  · rintro ⟨⟨hne, hdigits⟩, hhead⟩
    have hcs := toDigits_ofDigits hdigits hne fun _ => hhead
    refine ⟨ofDigits cs, Nat.one_le_iff_ne_zero.mpr fun hzero => hhead ?_, hcs.symm⟩
    rw [← hcs, hzero]
    rfl
  · rintro ⟨k, hk, rfl⟩
    exact ⟨⟨Nat.toDigits_ne_nil, isDigit_of_mem_toDigits⟩, head?_toDigits_ne hk⟩

/-- A delay is one group of a positive number: of seconds, or of at most ten minutes. -/
theorem isRerunDelay_iff {cs : List Char} : isRerunDelay cs = true ↔
    ∃ k, 1 ≤ k ∧ (cs = (TimeGroup.ofNat k .second).text ∨ k ≤ 10 ∧ cs = (TimeGroup.ofNat k .minute).text) := by
  constructor
  · intro h
    rw [isRerunDelay] at h
    split at h
    · next hlast =>
      obtain ⟨k, hk, hcs⟩ := isCount_iff.mp h
      refine ⟨k, hk, .inl ?_⟩
      rw [← List.dropLast_append_getLast? 's' hlast, hcs]
      rfl
    · next hlast =>
      obtain ⟨hcount, hle⟩ := Bool.and_eq_true_iff.mp h
      obtain ⟨k, hk, hcs⟩ := isCount_iff.mp hcount
      rw [hcs, ofDigits_toDigits, decide_eq_true_eq] at hle
      refine ⟨k, hk, .inr ⟨hle, ?_⟩⟩
      rw [← List.dropLast_append_getLast? 'm' hlast, hcs]
      rfl
    · cases h
  · rintro ⟨k, hk, rfl | ⟨hle, rfl⟩⟩
    · have hcount := isCount_iff.mpr ⟨k, hk, rfl⟩
      simpa [isRerunDelay, TimeGroup.text, TimeGroup.ofNat, TimeUnit.letter] using hcount
    · have hcount := isCount_iff.mpr ⟨k, hk, rfl⟩
      simpa [isRerunDelay, TimeGroup.text, TimeGroup.ofNat, TimeUnit.letter, ofDigits_toDigits, hle] using hcount

theorem rerunDelayFault?_eq_none_iff {text : String} : rerunDelayFault? text = none ↔
    ∃ n, duration? text.toList = some n ∧ n ≤ maxRerunDelay ∧ isRerunDelay text.toList = true := by
  rw [rerunDelayFault?]
  cases duration? text.toList with
  | none => simp
  | some n =>
    simp only [Option.some.injEq, exists_eq_left']
    split_ifs with hmax hdelay
    · simp [Nat.not_le.mpr hmax]
    · simpa [hdelay] using Nat.not_lt.mp hmax
    · simp [hdelay]

/-- Durations are read exactly. A text has a duration just if it is made of one or more groups of digits with a unit,
and the duration is the exact number of their seconds, if that fits 64 bits. Read in words of 64 bits it is the same, so
nothing goes beyond a word on the way. And nothing is wrong with a delay just if it is a number of seconds from 1 to 600
or a number of minutes from 1 to 10, written in decimal without extra zeros and without a sign. -/
theorem durations_exact (text : String) :
    (∀ n, duration? text.toList = some n ↔ ∃ groups, groups ≠ [] ∧ text.toList = durationText groups ∧
      totalSeconds groups = n ∧ n < 2 ^ 64) ∧
    (durationWord? text.toList).map UInt64.toNat = duration? text.toList ∧
    (rerunDelayFault? text = none ↔
      ∃ k : Nat, (1 ≤ k ∧ k ≤ 600 ∧ text = toString k ++ "s") ∨ (1 ≤ k ∧ k ≤ 10 ∧ text = toString k ++ "m")) := by
  refine ⟨fun n => duration?_eq_some_iff, map_toNat_durationWord? _, ?_⟩
  have hword (k : Nat) (u : TimeUnit) :
      text = toString k ++ String.singleton u.letter ↔ text.toList = (TimeGroup.ofNat k u).text := by
    rw [← String.toList_inj, String.toList_append, Nat.toString_eq_repr, Nat.toList_repr, String.toList_singleton]
    rfl
  have hduration {k n : Nat} {u : TimeUnit} (htext : text.toList = (TimeGroup.ofNat k u).text) :
      duration? text.toList = some n ↔ k * u.seconds = n ∧ n < 2 ^ 64 := by
    rw [htext, duration?_text_eq_some_iff, TimeGroup.seconds_ofNat]
  rw [rerunDelayFault?_eq_none_iff, isRerunDelay_iff]
  constructor
  · rintro ⟨n, hn, hmax, k, hk, htext | ⟨hle, htext⟩⟩
    · obtain ⟨rfl, -⟩ := (hduration htext).mp hn
      rw [TimeUnit.seconds, Nat.mul_one] at hmax
      exact ⟨k, .inl ⟨hk, hmax, (hword k .second).mpr htext⟩⟩
    · exact ⟨k, .inr ⟨hk, hle, (hword k .minute).mpr htext⟩⟩
  · rintro ⟨k, ⟨hk, hle, htext⟩ | ⟨hk, hle, htext⟩⟩
    · have htext := (hword k .second).mp htext
      have hn := (hduration htext (n := k)).mpr ⟨Nat.mul_one k, by omega⟩
      exact ⟨k, hn, hle, k, hk, .inl htext⟩
    · have htext := (hword k .minute).mp htext
      have hn := (hduration htext (n := k * 60)).mpr ⟨rfl, by omega⟩
      exact ⟨k * 60, hn, Nat.mul_le_mul_right 60 hle, k, hk, .inr ⟨hle, htext⟩⟩

end PipelineLint.Check
