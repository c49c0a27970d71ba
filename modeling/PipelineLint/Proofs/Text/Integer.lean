import PipelineLint.Text.Integer
import Mathlib.Algebra.Group.Nat.Defs
import Mathlib.Data.List.Basic
import Mathlib.Data.List.Induction

/-! # Decimal digits

The digits of a number are read as that number, and without extra zeros in front there are no other digits of it.
-/

namespace PipelineLint.Text

variable {digits : List Char} {n high bits : Nat}

theorem ofDigits_toDigits (n : Nat) : ofDigits (Nat.toDigits 10 n) = n := by
  have hstep : (fun (n : Nat) (c : Char) => n * 10 + digitValue c) = fun n c => 10 * n + (c.toNat - '0'.toNat) := by
    funext n c
    rw [Nat.mul_comm, digitValue]
  rw [ofDigits, hstep]
  exact Nat.ofDigitChars_ten_toDigits

theorem ofDigits_append_singleton (digits : List Char) (d : Char) :
    ofDigits (digits ++ [d]) = 10 * ofDigits digits + digitValue d := by
  simp [ofDigits, Nat.mul_comm]

theorem isDigit_of_mem_toDigits : ∀ d ∈ Nat.toDigits 10 n, d.isDigit = true :=
  fun _ => Nat.isDigit_of_mem_toDigits (by decide) (by decide)

theorem head?_toDigits_ne (hn : 0 < n) : (Nat.toDigits 10 n).head? ≠ some '0' := by
  induction n using Nat.strongRecOn with
  | ind n ih =>
    by_cases hlt : n < 10
    · simpa [Nat.toDigits_of_lt_base hlt] using Nat.ne_of_gt hn
    · have hle : 10 ≤ n := Nat.not_lt.mp hlt
      rw [Nat.toDigits_of_base_le (by decide) hle, List.head?_append_of_ne_nil _ Nat.toDigits_ne_nil]
      exact ih (n / 10) (by omega) (by omega)

theorem digitValue_lt {d : Char} (hd : d.isDigit = true) : digitValue d < 10 := by
  obtain ⟨hlow, hhigh⟩ := Char.isDigit_iff_toNat.mp hd
  change 48 ≤ d.toNat at hlow
  change d.toNat ≤ 57 at hhigh
  change d.toNat - 48 < 10
  omega

private theorem toDigits_digitValue {d : Char} (hd : d.isDigit = true) : Nat.toDigits 10 (digitValue d) = [d] := by
  have hvalue := digitValue_lt hd
  have hlow : 48 ≤ d.toNat := (Char.isDigit_iff_toNat.mp hd).1
  rw [Nat.toDigits_of_lt_base hvalue, List.singleton_inj, ← Char.toNat_inj, Nat.toNat_digitChar_of_lt_ten hvalue]
  exact Nat.add_sub_cancel' hlow

/-- Digits are those of the number that they write, if the first of several is no zero. -/
theorem toDigits_ofDigits (hdigits : ∀ d ∈ digits, d.isDigit = true) (hne : digits ≠ [])
    (hhead : 1 < digits.length → digits.head? ≠ some '0') : Nat.toDigits 10 (ofDigits digits) = digits := by
  induction digits using List.reverseRecOn with
  | nil => exact absurd rfl hne
  | append_singleton digits d ih =>
    have hd : d.isDigit = true := hdigits d (by simp)
    have hlast := toDigits_digitValue hd
    rw [ofDigits_append_singleton]
    by_cases hnil : digits = []
    · subst hnil
      simpa [ofDigits] using hlast
    have hhead' : digits.head? ≠ some '0' := by
      have hhead := hhead (by simp [List.length_pos_iff.mpr hnil])
      rwa [List.head?_append_of_ne_nil _ hnil] at hhead
    have hrest := ih (fun c hc => hdigits c (by simp [hc])) hnil fun _ => hhead'
    have hpos : 0 < ofDigits digits := by
      refine Nat.pos_of_ne_zero fun hzero => hhead' ?_
      rw [← hrest, hzero]
      rfl
    rw [← Nat.toDigits_append_toDigits (by decide) hpos (digitValue_lt hd), hrest, hlast]

/-- A run of digits is a number unless it is empty or the number is too high. -/
theorem natural?_eq_some_iff (hdigits : ∀ d ∈ digits, d.isDigit = true) :
    natural? high digits = some n ↔ digits ≠ [] ∧ ofDigits digits = n ∧ n ≤ high := by
  have hsign : natural? high digits = (digits? digits).bind fun n => if n ≤ high then some n else none := by
    rw [natural?]
    · rfl
    · rintro rest rfl
      exact absurd (hdigits '+' List.mem_cons_self) (by decide)
  rw [hsign, digits?, List.all_eq_true.mpr hdigits]
  cases digits with
  | nil => simp
  | cons d digits =>
    simp only [List.isEmpty_cons, Bool.not_false, Bool.and_self, if_true, Option.bind_some, ne_eq, reduceCtorEq,
      not_false_eq_true, true_and, Option.ite_none_right_eq_some, Option.some.injEq]
    constructor
    · rintro ⟨hle, rfl⟩
      exact ⟨rfl, hle⟩
    · rintro ⟨rfl, hle⟩
      exact ⟨hle, rfl⟩

theorem unsigned?_eq_some_iff (hdigits : ∀ d ∈ digits, d.isDigit = true) :
    unsigned? bits digits = some n ↔ digits ≠ [] ∧ ofDigits digits = n ∧ n < 2 ^ bits := by
  rw [unsigned?, natural?_eq_some_iff hdigits, Nat.pow_eq, Nat.le_sub_one_iff_lt (Nat.two_pow_pos bits)]

theorem unsigned?_toDigits (hn : n < 2 ^ bits) : unsigned? bits (Nat.toDigits 10 n) = some n :=
  (unsigned?_eq_some_iff isDigit_of_mem_toDigits).mpr ⟨Nat.toDigits_ne_nil, ofDigits_toDigits n, hn⟩

theorem lt_of_unsigned?_eq_some {cs : List Char} (h : unsigned? bits cs = some n) : n < 2 ^ bits := by
  obtain ⟨k, -, hk⟩ := Option.bind_eq_some_iff.mp h
  obtain ⟨hle, hkn⟩ := Option.ite_none_right_eq_some.mp hk
  rw [Nat.pow_eq, Nat.le_sub_one_iff_lt (Nat.two_pow_pos bits)] at hle
  exact Option.some.inj hkn ▸ hle

end PipelineLint.Text
