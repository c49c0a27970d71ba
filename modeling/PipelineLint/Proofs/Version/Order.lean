import PipelineLint.Version
import Mathlib.Data.List.Basic
import Mathlib.Order.Lattice

/-! # The order of versions

Comparing versions tells apart all that differ, and it is transitive: versions are in a linear order. The parts of the
comparison have the same laws, from the characters of labels up; so each step takes over what holds of its parts.
-/

namespace PipelineLint.Version

open Std

section Comparing

variable {α β : Type} {cmp : β → β → Ordering} {f : α → β} {p : α → Bool} {inside outside : α → α → Ordering}

theorem transCmp_on [TransCmp cmp] : TransCmp fun a b => cmp (f a) (f b) where
  eq_swap := OrientedCmp.eq_swap
  isLE_trans := TransCmp.isLE_trans

private theorem lawfulEqCmp_on [LawfulEqCmp cmp] (hf : ∀ a b, f a = f b → a = b) :
    LawfulEqCmp fun a b => cmp (f a) (f b) where
  compare_self := ReflCmp.compare_self
  eq_of_compare h := hf _ _ (LawfulEqCmp.eq_of_compare h)

/-- What is in a class comes before what is not; within and without there are comparisons of their own. -/
def compareByClass (p : α → Bool) (inside outside : α → α → Ordering) (a b : α) : Ordering :=
  match p a, p b with
  | true, false => .lt
  | false, true => .gt
  | true, true => inside a b
  | false, false => outside a b

theorem transCmp_byClass [TransCmp inside] [TransCmp outside] : TransCmp (compareByClass p inside outside) where
  eq_swap {a b} := by
    cases ha : p a <;> cases hb : p b <;> simp only [compareByClass, ha, hb]
    · exact OrientedCmp.eq_swap
    · rfl
    · rfl
    · exact OrientedCmp.eq_swap
  isLE_trans {a b c} h h' := by
    cases ha : p a <;> cases hb : p b <;> cases hc : p c <;> simp only [compareByClass, ha, hb, hc] at h h' ⊢
    all_goals first | exact TransCmp.isLE_trans h h' | contradiction | rfl

theorem lawfulEqCmp_byClass [ReflCmp inside] [ReflCmp outside]
    (hinside : ∀ a b, p a = true → p b = true → inside a b = .eq → a = b)
    (houtside : ∀ a b, p a = false → p b = false → outside a b = .eq → a = b) :
    LawfulEqCmp (compareByClass p inside outside) where
  compare_self {a} := by
    cases ha : p a <;> simp only [compareByClass, ha, ReflCmp.compare_self]
  eq_of_compare {a b} h := by
    cases ha : p a <;> cases hb : p b <;> simp only [compareByClass, ha, hb, reduceCtorEq] at h
    · exact houtside a b ha hb h
    · exact hinside a b ha hb h

end Comparing

instance : TransCmp compareChars :=
  have : TransCmp fun c d : Char => compare c.toNat d.toNat := transCmp_on
  inferInstanceAs (TransCmp (List.compareLex _))

instance : LawfulEqCmp compareChars :=
  have : LawfulEqCmp fun c d : Char => compare c.toNat d.toNat := lawfulEqCmp_on fun _ _ => Char.toNat_inj.mp
  inferInstanceAs (LawfulEqCmp (List.compareLex fun c d : Char => compare c.toNat d.toNat))

/-- The digits of a number without the zeros in front. -/
def significant (label : List Char) : List Char := label.dropWhile (· == '0')

/-- Compares numbers by value, then by the number of zeros in front. -/
def compareNumbers : List Char → List Char → Ordering :=
  compareLex (compareOn fun label => (significant label).length)
    (compareLex (fun a b => compareChars (significant a) (significant b)) (compareOn List.length))

instance : TransCmp compareNumbers :=
  have : TransCmp fun a b => compareChars (significant a) (significant b) := transCmp_on
  inferInstanceAs (TransCmp (compareLex _ _))

/-- Numbers with as many digits of which the same are left without zeros in front are the same. -/
theorem eq_of_significant_eq {a b : List Char} (h : significant a = significant b) (hlength : a.length = b.length) :
    a = b := by
  have hsplit (label : List Char) :
      label = List.replicate (label.length - (significant label).length) '0' ++ significant label := by
    have hzeros : label.takeWhile (· == '0') = List.replicate (label.takeWhile (· == '0')).length '0' := by
      rw [List.eq_replicate_iff]
      refine ⟨rfl, fun c hc => ?_⟩
      simpa using List.all_eq_true.mp List.all_takeWhile c hc
    have hlength := congrArg List.length (List.takeWhile_append_dropWhile (p := (· == '0')) (l := label))
    rw [List.length_append] at hlength
    rw [significant, ← hlength, Nat.add_sub_cancel, ← hzeros, List.takeWhile_append_dropWhile]
  rw [hsplit a, hsplit b, h, hlength]

instance : LawfulEqCmp compareNumbers where
  compare_self := by
    simp [compareNumbers, compareLex_eq_eq, compareOn]
  eq_of_compare h := by
    simp only [compareNumbers, compareLex_eq_eq, compareOn, LawfulEqCmp.compare_eq_iff_eq] at h
    exact eq_of_significant_eq h.2.1 h.2.2

/-- Numbers come before words. -/
theorem compareLabels_eq : compareLabels = compareByClass isNumeric compareNumbers compareChars := by
  funext a b
  rw [compareLabels, compareByClass]
  cases isNumeric a <;> cases isNumeric b <;> rfl

instance : TransCmp compareLabels := compareLabels_eq ▸ transCmp_byClass

instance : LawfulEqCmp compareLabels :=
  compareLabels_eq ▸ lawfulEqCmp_byClass (fun _ _ _ _ => LawfulEqCmp.eq_of_compare)
    fun _ _ _ _ => LawfulEqCmp.eq_of_compare

def compareReleases : List (List Char) → List (List Char) → Ordering := fun _ _ => .eq

instance : TransCmp compareReleases where
  eq_swap := rfl
  isLE_trans _ _ := rfl

theorem comparePre_eq :
    comparePre = compareByClass (fun labels => !labels.isEmpty) (List.compareLex compareLabels) compareReleases := by
  funext a b
  rw [comparePre, compareByClass]
  cases a.isEmpty <;> cases b.isEmpty <;> rfl

instance : TransCmp comparePre := comparePre_eq ▸ transCmp_byClass

instance : LawfulEqCmp comparePre := by
  rw [comparePre_eq]
  refine lawfulEqCmp_byClass (fun _ _ _ _ => LawfulEqCmp.eq_of_compare) fun a b ha hb _ => ?_
  rw [Bool.not_eq_false', List.isEmpty_iff] at ha hb
  rw [ha, hb]

theorem compare_eq : Version.compare = compareLex (compareOn major) (compareLex (compareOn minor)
    (compareLex (compareOn patch) (compareLex (fun v w => comparePre v.pre w.pre)
      fun v w => List.compareLex compareLabels v.build w.build))) := rfl

instance : TransCmp Version.compare := by
  have hpre : TransCmp fun v w : Version => comparePre v.pre w.pre := transCmp_on
  have hbuild : TransCmp fun v w : Version => List.compareLex compareLabels v.build w.build := transCmp_on
  rw [compare_eq]
  infer_instance

instance : LawfulEqCmp Version.compare where
  compare_self := by simp [compare_eq, compareLex_eq_eq, compareOn]
  eq_of_compare {v w} h := by
    simp only [compare_eq, compareLex_eq_eq, compareOn, LawfulEqCmp.compare_eq_iff_eq] at h
    obtain ⟨hmajor, hminor, hpatch, hpre, hbuild⟩ := h
    cases v
    cases w
    simp_all

@[simp]
theorem compare_self (v : Version) : v.compare v = .eq := ReflCmp.compare_self

theorem compare_swap (v w : Version) : w.compare v = (v.compare w).swap := OrientedCmp.eq_swap

instance : LinearOrder Version where
  le v w := (v.compare w).isLE = true
  lt v w := v.compare w = .lt
  le_refl v := by simp
  le_trans _ _ _ := TransCmp.isLE_trans
  le_antisymm _ _ h h' := LawfulEqCmp.eq_of_compare (OrientedCmp.isLE_antisymm h h')
  le_total v w := by
    rw [compare_swap v w]
    cases v.compare w <;> simp
  lt_iff_le_not_ge v w := by
    rw [compare_swap v w]
    cases v.compare w <;> simp
  toDecidableLE v w := inferInstanceAs (Decidable ((v.compare w).isLE = true))
  toDecidableEq := inferInstance
  compare := Version.compare
  compare_eq_compareOfLessAndEq v w := by
    rw [compareOfLessAndEq]
    split
    · next hlt => exact hlt
    next hnot =>
    split
    · next heq => rw [heq, compare_self]
    next hne =>
    cases hcompare : v.compare w with
    | lt => exact absurd hcompare hnot
    | eq => exact absurd (LawfulEqCmp.eq_of_compare hcompare) hne
    | gt => rfl

theorem newerThan_iff {v w : Version} : v.newerThan w = true ↔ w < v := by
  rw [newerThan, beq_iff_eq, OrientedCmp.gt_iff_lt]
  exact Iff.rfl

end PipelineLint.Version
