import Mathlib.Data.List.Flatten
import Mathlib.Data.List.Forall2

/-! # Lists and options of things that correspond

What is computed in the same way from things that correspond is the same, or corresponds as well.
-/

namespace PipelineLint

open List (Forall₂)

variable {α β γ : Type} {r : α → β → Prop}

/-- Options with the same image are both absent or both present. -/
theorem option_cases {f : α → β} {x y : Option α} (h : x.map f = y.map f) :
    x = none ∧ y = none ∨ ∃ a b, x = some a ∧ y = some b ∧ f a = f b := by
  cases x with
  | none =>
    cases y with
    | none => exact .inl ⟨rfl, rfl⟩
    | some b => cases h
  | some a =>
    cases y with
    | none => cases h
    | some b => exact .inr ⟨a, b, rfl, rfl, Option.some.inj h⟩

theorem rel_cases {x : Option α} {y : Option β} (h : Option.Rel r x y) :
    x = none ∧ y = none ∨ ∃ a b, x = some a ∧ y = some b ∧ r a b := by
  cases h with
  | none => exact .inl ⟨rfl, rfl⟩
  | some hab => exact .inr ⟨_, _, rfl, rfl, hab⟩

instance decidableOptionRel [∀ a b, Decidable (r a b)] : (x : Option α) → (y : Option β) → Decidable (Option.Rel r x y)
  | none, none => isTrue .none
  | none, some _ => isFalse nofun
  | some _, none => isFalse nofun
  | some a, some b => decidable_of_iff (r a b) ⟨.some, fun | .some hab => hab⟩

theorem rel_mono {s : α → β → Prop} (hrs : ∀ a b, r a b → s a b) {x : Option α} {y : Option β} (h : Option.Rel r x y) :
    Option.Rel s x y := by
  cases h with
  | none => exact .none
  | some hab => exact .some (hrs _ _ hab)

theorem exists_of_rel_some_left {a : α} {y : Option β} (h : Option.Rel r (some a) y) : ∃ b, y = some b ∧ r a b := by
  cases h with
  | some hab => exact ⟨_, rfl, hab⟩

theorem exists_of_rel_some_right {x : Option α} {b : β} (h : Option.Rel r x (some b)) : ∃ a, x = some a ∧ r a b := by
  cases h with
  | some hab => exact ⟨_, rfl, hab⟩

theorem isSome_eq_of_rel {x : Option α} {y : Option β} (h : Option.Rel r x y) : x.isSome = y.isSome := by
  cases h <;> rfl

theorem map_eq_of_rel {f : α → γ} {g : β → γ} {x : Option α} {y : Option β} (h : Option.Rel r x y)
    (hf : ∀ a b, r a b → f a = g b) : x.map f = y.map g := by
  cases h with
  | none => rfl
  | some hab => simp [hf _ _ hab]

theorem any_eq_of_rel {p : α → Bool} {q : β → Bool} {x : Option α} {y : Option β} (h : Option.Rel r x y)
    (hp : ∀ a b, r a b → p a = q b) : x.any p = y.any q := by
  cases h with
  | none => rfl
  | some hab => exact hp _ _ hab

theorem bind_eq_of_rel {f : α → Option γ} {g : β → Option γ} {x : Option α} {y : Option β} (h : Option.Rel r x y)
    (hf : ∀ a b, r a b → f a = g b) : x.bind f = y.bind g := by
  cases h with
  | none => rfl
  | some hab => exact hf _ _ hab

theorem rel_bind {γ' : Type} {s : γ → γ' → Prop} {f : α → Option γ} {g : β → Option γ'} {x : Option α} {y : Option β}
    (h : Option.Rel r x y) (hf : ∀ a b, r a b → Option.Rel s (f a) (g b)) : Option.Rel s (x.bind f) (y.bind g) := by
  cases h with
  | none => exact .none
  | some hab => exact hf _ _ hab

theorem rel_or {x x' : Option α} {y y' : Option β} (h : Option.Rel r x y) (h' : Option.Rel r x' y') :
    Option.Rel r (x.or x') (y.or y') := by
  cases h with
  | none => exact h'
  | some hab => exact .some hab

theorem rel_filter {p : α → Bool} {q : β → Bool} {x : Option α} {y : Option β} (h : Option.Rel r x y)
    (hp : ∀ a b, r a b → p a = q b) : Option.Rel r (x.filter p) (y.filter q) := by
  cases h with
  | none => exact .none
  | @some a b hab =>
    rw [Option.filter_some, Option.filter_some, hp a b hab]
    cases q b
    · exact .none
    · exact .some hab

theorem map_eq_of_forall₂ {f : α → γ} {g : β → γ} {xs : List α} {ys : List β} (h : Forall₂ r xs ys)
    (hf : ∀ a b, r a b → f a = g b) : xs.map f = ys.map g := by
  induction h with
  | nil => rfl
  | cons hab _ ih => simp [hf _ _ hab, ih]

theorem filterMap_eq_of_forall₂ {f : α → Option γ} {g : β → Option γ} {xs : List α} {ys : List β} (h : Forall₂ r xs ys)
    (hf : ∀ a b, r a b → f a = g b) : xs.filterMap f = ys.filterMap g := by
  induction h with
  | nil => rfl
  | cons hab _ ih => rw [List.filterMap_cons, List.filterMap_cons, hf _ _ hab, ih]

theorem flatMap_eq_of_forall₂ {f : α → List γ} {g : β → List γ} {xs : List α} {ys : List β} (h : Forall₂ r xs ys)
    (hf : ∀ a b, r a b → f a = g b) : xs.flatMap f = ys.flatMap g := by
  rw [List.flatMap_def, List.flatMap_def, map_eq_of_forall₂ h hf]

/-- Lists that are put together from parts are equal just if the parts are, where those of the one are parts of those of
the other. -/
theorem flatMap_eq_flatMap_iff {f g : α → List β} {xs : List α} (h : ∀ x ∈ xs, (f x).Sublist (g x)) :
    xs.flatMap f = xs.flatMap g ↔ ∀ x ∈ xs, f x = g x := by
  refine ⟨fun heq => ?_, List.flatMap_congr⟩
  induction xs with
  | nil => exact List.forall_mem_nil _
  | cons x xs ih =>
    obtain ⟨hx, hxs⟩ := List.forall_mem_cons.mp h
    rw [List.flatMap_cons, List.flatMap_cons] at heq
    -- Neither part is longer on the left, so both are as long on the right.
    have hlengths := congrArg List.length heq
    have hrest := (List.Sublist.flatMap_right xs hxs).length_le
    rw [List.length_append, List.length_append] at hlengths
    have hsame : f x = g x := hx.eq_of_length_le (by omega)
    rw [hsame] at heq
    exact List.forall_mem_cons.mpr ⟨hsame, ih hxs (List.append_cancel_left heq)⟩

theorem forall₂_filter {p : α → Bool} {q : β → Bool} {xs : List α} {ys : List β} (h : Forall₂ r xs ys)
    (hp : ∀ a b, r a b → p a = q b) : Forall₂ r (xs.filter p) (ys.filter q) :=
  List.rel_filter (fun a b hab => by simp [hp a b hab]) h

/-- What is kept of lists corresponds in what the filter tells as well. -/
theorem forall₂_filter_of {s : α → β → Prop} {p : α → Bool} {q : β → Bool} {xs : List α} {ys : List β}
    (h : Forall₂ r xs ys) (hp : ∀ a b, r a b → p a = q b) (hs : ∀ a b, r a b → p a → s a b) :
    Forall₂ s (xs.filter p) (ys.filter q) := by
  induction h with
  | nil => exact .nil
  | @cons a b _ _ hab _ ih =>
    rw [List.filter_cons, List.filter_cons, ← hp a b hab]
    split
    · exact .cons (hs a b hab ‹_›) ih
    · exact ih

theorem rel_head? {xs : List α} {ys : List β} (h : Forall₂ r xs ys) : Option.Rel r xs.head? ys.head? := by
  cases h with
  | nil => exact .none
  | cons hab _ => exact .some hab

/-- What is found in lists corresponds in what the search tells as well. -/
theorem rel_find?_of {s : α → β → Prop} {p : α → Bool} {q : β → Bool} {xs : List α} {ys : List β}
    (h : Forall₂ r xs ys) (hp : ∀ a b, r a b → p a = q b) (hs : ∀ a b, r a b → p a → s a b) :
    Option.Rel s (xs.find? p) (ys.find? q) := by
  rw [← List.head?_filter, ← List.head?_filter]
  exact rel_head? (forall₂_filter_of h hp hs)

theorem rel_find? {p : α → Bool} {q : β → Bool} {xs : List α} {ys : List β} (h : Forall₂ r xs ys)
    (hp : ∀ a b, r a b → p a = q b) : Option.Rel r (xs.find? p) (ys.find? q) :=
  rel_find?_of h hp fun _ _ hab _ => hab

theorem rel_getElem? {xs : List α} {ys : List β} (h : Forall₂ r xs ys) (i : Nat) : Option.Rel r xs[i]? ys[i]? := by
  induction h generalizing i with
  | nil => exact .none
  | cons hab _ ih =>
    cases i with
    | zero => exact .some hab
    | succ i => exact ih i

theorem rel_findSome? {γ' : Type} {s : γ → γ' → Prop} {f : α → Option γ} {g : β → Option γ'} {xs : List α} {ys : List β}
    (h : Forall₂ r xs ys) (hf : ∀ a b, r a b → Option.Rel s (f a) (g b)) :
    Option.Rel s (xs.findSome? f) (ys.findSome? g) := by
  induction h with
  | nil => exact .none
  | @cons a b _ _ hab _ ih =>
    rw [List.findSome?_cons, List.findSome?_cons]
    obtain ⟨ha, hb⟩ | ⟨x, y, ha, hb, hxy⟩ := rel_cases (hf a b hab)
    · simpa only [ha, hb] using ih
    · simpa only [ha, hb] using .some hxy

theorem any_eq_of_forall₂ {p : α → Bool} {q : β → Bool} {xs : List α} {ys : List β} (h : Forall₂ r xs ys)
    (hp : ∀ a b, r a b → p a = q b) : xs.any p = ys.any q := by
  induction h with
  | nil => rfl
  | cons hab _ ih => simp [hp _ _ hab, ih]

theorem foldl_eq_of_forall₂ {f : γ → α → γ} {g : γ → β → γ} {xs : List α} {ys : List β} (h : Forall₂ r xs ys)
    (hf : ∀ c a b, r a b → f c a = g c b) (c : γ) : xs.foldl f c = ys.foldl g c := by
  induction h generalizing c with
  | nil => rfl
  | cons hab _ ih => rw [List.foldl_cons, List.foldl_cons, hf c _ _ hab, ih]

end PipelineLint
