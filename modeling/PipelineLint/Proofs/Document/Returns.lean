import PipelineLint.Document.Reads

/-! # When reading ends

Reading in steps ends just if each step does. What a step is does not depend on the findings before it,
and often whether it ends does not even depend on the results before it.
-/

namespace PipelineLint.Reads

variable {α β σ : Type}

/-- Reading has a result. -/
def Returns (x : Reads α) : Prop := ∃ y, x = Except.ok y

/-- What reading gives, if it ends and gives something. -/
def given (x : Reads (Option α)) : Option α :=
  match x with
  | .ok (a, _) => a
  | .error _ => none

def findings (x : Reads α) : List Diagnostic :=
  match x with
  | .ok (_, findings) => findings
  | .error _ => []

/-- If reading has a result, it has a property. -/
def Always (P : α → Prop) (x : Reads α) : Prop := ∀ a findings, x = Except.ok (a, findings) → P a

@[simp] theorem returns_pure (a : α) : Returns (pure a : Reads α) := ⟨_, rfl⟩

@[simp] theorem returns_note (d : Diagnostic) : Returns (note d) := ⟨_, rfl⟩

@[simp] theorem returns_notes (ds : List Diagnostic) : Returns (notes ds) := ⟨_, rfl⟩

@[simp] theorem not_returns_endless : ¬ Returns (endless : Reads α) := fun ⟨_, h⟩ => nomatch h

theorem returns_insertFirst {m : NameMap α} {name : String} {entity : α} {nameRange : α → Range} {message : String} :
    Returns (Read.insertFirst m name entity nameRange message) := by
  rw [Read.insertFirst]
  split
  · exact ⟨_, rfl⟩
  · exact ⟨_, rfl⟩

theorem bind_eq_ok_iff {x : Reads α} {f : α → Reads β} {b : β} {findings : List Diagnostic} :
    x >>= f = Except.ok (b, findings) ↔ ∃ a before after,
      x = Except.ok (a, before) ∧ f a = Except.ok (b, after) ∧ findings = before ++ after := by
  constructor
  · intro h
    match x, h with
    | .ok (a, before), h =>
      cases hf : f a with
      | error e => simp [bind, hf] at h
      | ok y =>
        obtain ⟨b', after⟩ := y
        simp only [bind, hf] at h
        cases h
        exact ⟨a, before, after, rfl, hf, rfl⟩
  · rintro ⟨a, before, after, rfl, hf, rfl⟩
    simp only [bind, hf]
    rfl

theorem pure_eq_ok_iff {a b : α} {findings : List Diagnostic} :
    (pure a : Reads α) = Except.ok (b, findings) ↔ b = a ∧ findings = [] := by
  constructor
  · intro h
    cases h
    exact ⟨rfl, rfl⟩
  · rintro ⟨rfl, rfl⟩
    rfl

theorem each_cons_eq_ok_iff {f : α → Reads β} {x : α} {xs : List α} {all : List β} {findings : List Diagnostic} :
    each f (x :: xs) = Except.ok (all, findings) ↔ ∃ y before ys after,
      f x = Except.ok (y, before) ∧ each f xs = Except.ok (ys, after) ∧ all = y :: ys ∧ findings = before ++ after := by
  simp only [each, bind_eq_ok_iff, pure_eq_ok_iff]
  constructor
  · rintro ⟨y, before, _, hy, ⟨ys, after, _, hys, ⟨rfl, rfl⟩, rfl⟩, rfl⟩
    exact ⟨y, before, ys, after, hy, hys, rfl, by rw [List.append_nil]⟩
  · rintro ⟨y, before, ys, after, hy, hys, rfl, rfl⟩
    exact ⟨y, before, after, hy, ⟨ys, after, [], hys, ⟨rfl, rfl⟩, by rw [List.append_nil]⟩, rfl⟩

/-- A step between two others that finds nothing can be made with the second one. -/
theorem bind_pure_bind {γ : Type} (x : Reads α) (f : α → β) (g : β → Reads γ) :
    (x >>= fun a => pure (f a)) >>= g = x >>= fun a => g (f a) := by
  match x with
  | .error e => rfl
  | .ok (a, findings) =>
    simp only [bind, pure, List.append_nil]

theorem always_pure {P : α → Prop} {a : α} (h : P a) : Always P (pure a : Reads α) := by
  rintro b findings hb
  cases hb
  exact h

theorem Always.bind {P : α → Prop} {Q : β → Prop} {x : Reads α} {f : α → Reads β} (hx : Always P x)
    (hf : ∀ a, P a → Always Q (f a)) : Always Q (x >>= f) := by
  intro b findings hb
  obtain ⟨a, before, after, ha, hb, -⟩ := bind_eq_ok_iff.mp hb
  exact hf a (hx a before ha) b after hb

theorem always_endless {P : α → Prop} : Always P (endless : Reads α) := fun _ _ h => nomatch h

/-- A second step that always gives a property gives it whatever the first step gives. -/
theorem always_bind {Q : β → Prop} {x : Reads α} {f : α → Reads β} (hf : ∀ a, Always Q (f a)) : Always Q (x >>= f) :=
  Always.bind (P := fun _ => True) (fun _ _ _ => trivial) fun a _ => hf a

theorem always_through {f : σ → α → Reads σ} {I : σ → Prop} {xs : List α} (hI : ∀ s, ∀ x ∈ xs, I s → Always I (f s x))
    {s : σ} (hs : I s) : Always I (through f s xs) := by
  induction xs generalizing s with
  | nil => exact always_pure hs
  | cons x xs ih =>
    exact (hI s x List.mem_cons_self hs).bind fun s' hs' => ih (fun s x hx => hI s x (List.mem_cons_of_mem _ hx)) hs'

theorem Always.mono {P Q : α → Prop} {x : Reads α} (hx : Always P x) (h : ∀ a, P a → Q a) : Always Q x :=
  fun a findings ha => h a (hx a findings ha)

theorem Always.and {P Q : α → Prop} {x : Reads α} (hP : Always P x) (hQ : Always Q x) :
    Always (fun a => P a ∧ Q a) x :=
  fun a findings ha => ⟨hP a findings ha, hQ a findings ha⟩

/-- What is read from each thing has a property with it, and what is read is read from some thing. -/
theorem always_each {f : α → Reads β} {P : α → β → Prop} {xs : List α} (h : ∀ x ∈ xs, Always (P x) (f x)) :
    Always (fun ys => (∀ x ∈ xs, ∃ y ∈ ys, P x y) ∧ ∀ y ∈ ys, ∃ x ∈ xs, P x y) (each f xs) := by
  induction xs with
  | nil => exact always_pure (by simp)
  | cons x xs ih =>
    rw [each]
    refine (h x List.mem_cons_self).bind fun y hy => ?_
    refine (ih fun x hx => h x (List.mem_cons_of_mem _ hx)).bind fun ys ⟨hxs, hys⟩ => always_pure ⟨?_, ?_⟩
    · refine List.forall_mem_cons.mpr ⟨⟨y, List.mem_cons_self, hy⟩, fun x hx => ?_⟩
      obtain ⟨y', hy', hP⟩ := hxs x hx
      exact ⟨y', List.mem_cons_of_mem _ hy', hP⟩
    · refine List.forall_mem_cons.mpr ⟨⟨x, List.mem_cons_self, hy⟩, fun y hy => ?_⟩
      obtain ⟨x', hx', hP⟩ := hys y hy
      exact ⟨x', List.mem_cons_of_mem _ hx', hP⟩

/-- Where each step through a thing keeps an invariant, leaves a mark of the thing in the state and keeps earlier marks,
the invariant and the marks of all things are there in the end. -/
theorem always_through_marks {f : σ → α → Reads σ} {I : σ → Prop} {m : σ → α → Prop} {xs : List α}
    (hstep : ∀ s, I s → ∀ x ∈ xs, Always (fun s' => I s' ∧ m s' x ∧ ∀ y, m s y → m s' y) (f s x)) {s : σ}
    (hs : I s) : Always (fun s' => I s' ∧ ∀ x ∈ xs, m s' x) (through f s xs) := by
  have hkept : ∀ ys, (∀ x ∈ ys, x ∈ xs) → ∀ s, I s →
      Always (fun s' => I s' ∧ (∀ x ∈ ys, m s' x) ∧ ∀ y, m s y → m s' y) (through f s ys) := by
    intro ys
    induction ys with
    | nil => exact fun _ s hs => always_pure ⟨hs, List.forall_mem_nil _, fun _ => id⟩
    | cons x ys ih =>
      intro hsub s hs
      obtain ⟨hx, hys⟩ := List.forall_mem_cons.mp hsub
      refine (hstep s hs x hx).bind fun s' ⟨hs', hmark, hkeeps⟩ => (ih hys s' hs').mono ?_
      exact fun s'' ⟨hs'', hmarks, hkeeps'⟩ =>
        ⟨hs'', List.forall_mem_cons.mpr ⟨hkeeps' x hmark, hmarks⟩, fun y hy => hkeeps' y (hkeeps y hy)⟩
  exact (hkept xs (fun _ => id) s hs).mono fun s' ⟨hs', hmarks, _⟩ => ⟨hs', hmarks⟩

theorem returns_bind {x : Reads α} {f : α → Reads β} :
    Returns (x >>= f) ↔ ∃ a findings, x = Except.ok (a, findings) ∧ Returns (f a) := by
  constructor
  · rintro ⟨⟨b, findings⟩, hb⟩
    obtain ⟨a, before, after, hx, hf, -⟩ := bind_eq_ok_iff.mp hb
    exact ⟨a, before, hx, _, hf⟩
  · rintro ⟨a, findings, rfl, ⟨b, more⟩, hb⟩
    refine ⟨(b, findings ++ more), ?_⟩
    simp only [bind, hb]
    rfl

/-- Two steps of which the second one ends or not whatever the first one gives. -/
theorem returns_bind_iff {x : Reads α} {f : α → Reads β} {P : Prop} (h : ∀ a, Returns (f a) ↔ P) :
    Returns (x >>= f) ↔ Returns x ∧ P := by
  rw [returns_bind]
  constructor
  · rintro ⟨a, findings, hx, hf⟩
    exact ⟨⟨_, hx⟩, (h a).mp hf⟩
  · rintro ⟨⟨⟨a, findings⟩, hx⟩, hP⟩
    exact ⟨a, findings, hx, (h a).mpr hP⟩

/-- Two steps of which the second one ends. -/
@[simp] theorem returns_bind_of_returns {x : Reads α} {f : α → Reads β} (h : ∀ a, Returns (f a)) :
    Returns (x >>= f) ↔ Returns x := by
  rw [returns_bind_iff (P := True) fun a => by simp [h], and_true]

theorem returns_each {f : α → Reads β} {xs : List α} :
    Returns (each f xs) ↔ ∀ x ∈ xs, Returns (f x) := by
  induction xs with
  | nil => simp [each]
  | cons x xs ih =>
    rw [each, returns_bind_iff (P := Returns (each f xs)) fun _ => by simp, ih, List.forall_mem_cons]

/-- Reading through things, where each state on the way has a property on which it depends whether the
next step ends. -/
theorem returns_through_of {f : σ → α → Reads σ} {P : α → Prop} (I : σ → Prop) {xs : List α}
    (hf : ∀ s, I s → ∀ x ∈ xs, Returns (f s x) ↔ P x)
    (hI : ∀ s x, I s → Always I (f s x)) {s : σ} (hs : I s) :
    Returns (through f s xs) ↔ ∀ x ∈ xs, P x := by
  induction xs generalizing s with
  | nil => simp [through]
  | cons x xs ih =>
    have hrest : ∀ s', I s' → (Returns (through f s' xs) ↔ ∀ x ∈ xs, P x) := fun s' =>
      ih fun s hs x hx => hf s hs x (List.mem_cons_of_mem _ hx)
    rw [through, returns_bind, List.forall_mem_cons, ← hf s hs x List.mem_cons_self]
    constructor
    · rintro ⟨s', findings, hx, hxs⟩
      exact ⟨⟨_, hx⟩, (hrest s' (hI s x hs s' findings hx)).mp hxs⟩
    · rintro ⟨⟨⟨s', findings⟩, hx⟩, hxs⟩
      exact ⟨s', findings, hx, (hrest s' (hI s x hs s' findings hx)).mpr hxs⟩

/-- Reading through things, where the state does not matter. -/
theorem returns_through {f : σ → α → Reads σ} {P : α → Prop} {xs : List α}
    (hf : ∀ s, ∀ x ∈ xs, Returns (f s x) ↔ P x) {s : σ} :
    Returns (through f s xs) ↔ ∀ x ∈ xs, P x :=
  returns_through_of (fun _ => True) (fun s _ => hf s) (fun _ _ _ _ _ _ => trivial) trivial

/-- If reading has a result, it has a property, and so has all that is found. -/
def Yields (F : Diagnostic → Prop) (P : α → Prop) (x : Reads α) : Prop :=
  ∀ a findings, x = Except.ok (a, findings) → P a ∧ ∀ d ∈ findings, F d

variable {F G : Diagnostic → Prop} {P Q : α → Prop}

theorem yields_pure {a : α} (h : P a) : Yields F P (pure a : Reads α) := by
  rintro b findings hb
  cases hb
  exact ⟨h, List.forall_mem_nil _⟩

theorem yields_endless : Yields F P (endless : Reads α) := fun _ _ h => nomatch h

theorem yields_note {d : Diagnostic} (h : F d) : Yields F (fun _ => True) (note d) := by
  rintro b findings hb
  cases hb
  exact ⟨trivial, List.forall_mem_singleton.mpr h⟩

theorem yields_notes {ds : List Diagnostic} (h : ∀ d ∈ ds, F d) : Yields F (fun _ => True) (notes ds) := by
  rintro b findings hb
  cases hb
  exact ⟨trivial, h⟩

theorem Yields.bind {Q : β → Prop} {x : Reads α} {f : α → Reads β} (hx : Yields F P x)
    (hf : ∀ a, P a → Yields F Q (f a)) : Yields F Q (x >>= f) := by
  intro b findings hb
  obtain ⟨a, before, after, ha, hafter, rfl⟩ := bind_eq_ok_iff.mp hb
  obtain ⟨hP, hbefore⟩ := hx a before ha
  obtain ⟨hQ, hafter⟩ := hf a hP b after hafter
  exact ⟨hQ, List.forall_mem_append.mpr ⟨hbefore, hafter⟩⟩

theorem Yields.mono {x : Reads α} (hx : Yields F P x) (hF : ∀ d, F d → G d) (hP : ∀ a, P a → Q a) : Yields G Q x :=
  fun a findings ha => ⟨hP a (hx a findings ha).1, fun d hd => hF d ((hx a findings ha).2 d hd)⟩

theorem yields_each {f : α → Reads β} {P : β → Prop} {xs : List α} (h : ∀ x ∈ xs, Yields F P (f x)) :
    Yields F (fun ys => ∀ y ∈ ys, P y) (each f xs) := by
  induction xs with
  | nil => exact yields_pure (List.forall_mem_nil _)
  | cons x xs ih =>
    obtain ⟨hx, hxs⟩ := List.forall_mem_cons.mp h
    exact hx.bind fun y hy => (ih hxs).bind fun ys hys => yields_pure (List.forall_mem_cons.mpr ⟨hy, hys⟩)

theorem yields_through {f : σ → α → Reads σ} {I : σ → Prop} {xs : List α} (hI : ∀ s, ∀ x ∈ xs, I s → Yields F I (f s x))
    {s : σ} (hs : I s) : Yields F I (through f s xs) := by
  induction xs generalizing s with
  | nil => exact yields_pure hs
  | cons x xs ih =>
    exact (hI s x List.mem_cons_self hs).bind fun s' hs' => ih (fun s x hx => hI s x (List.mem_cons_of_mem _ hx)) hs'

end PipelineLint.Reads
