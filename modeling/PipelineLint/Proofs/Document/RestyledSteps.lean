import PipelineLint.Proofs.Document.Alike
import PipelineLint.Proofs.Document.Restyle
import PipelineLint.Proofs.Model.Unplaced

/-! # Steps and values in another style

What is read from values that show the same in different styles is the same but for its places: values, calls and steps,
however deep they stand in each other.
-/

namespace PipelineLint

open List (Forall₂)
open Yaml Yaml.View

namespace Reads

variable {α β γ σ τ : Type}

def shown (f : α → β) (x : Reads α) : Except Endless β := Except.map (fun read => f read.1) x

variable {f : α → β} {g : γ → τ}

@[simp] theorem shown_pure (f : α → β) (a : α) : shown f (pure a) = .ok (f a) := rfl

theorem shown_bind_of_always {P : α → Prop} {x y : Reads α} {k l : α → Reads γ} (hxy : shown f x = shown f y)
    (hP : Always P x) (hkl : ∀ a b, P a → f a = f b → shown g (k a) = shown g (l b)) :
    shown g (x >>= k) = shown g (y >>= l) := by
  have hbind (x : Reads α) (k : α → Reads γ) : shown g (x >>= k) =
      match x with
      | .error e => .error e
      | .ok read => shown g (k read.1) := by
    cases x with
    | error e => rfl
    | ok read =>
      obtain ⟨a, findings⟩ := read
      simp only [bind]
      cases k a <;> rfl
  rw [hbind, hbind]
  cases x with
  | error e =>
    cases y with
    | error e' => rfl
    | ok _ => cases hxy
  | ok read =>
    cases y with
    | error e => cases hxy
    | ok read' => exact hkl _ _ (hP _ _ rfl) (Except.ok.inj hxy)

theorem shown_bind {x y : Reads α} {k l : α → Reads γ} (hxy : shown f x = shown f y)
    (hkl : ∀ a b, f a = f b → shown g (k a) = shown g (l b)) : shown g (x >>= k) = shown g (y >>= l) :=
  shown_bind_of_always (P := fun _ => True) hxy (fun _ _ _ => trivial) fun a b _ => hkl a b

theorem shown_note_bind (d : Diagnostic) (k : Unit → Reads γ) : shown g (note d >>= k) = shown g (k ()) := by
  simp only [bind, note]
  cases k () <;> rfl

theorem shown_notes_bind (ds : List Diagnostic) (k : Unit → Reads γ) : shown g (notes ds >>= k) = shown g (k ()) := by
  simp only [bind, notes]
  cases k () <;> rfl

theorem shown_each {α' : Type} {r : α → α' → Prop} {k : α → Reads γ} {l : α' → Reads γ} {xs : List α} {ys : List α'}
    (h : Forall₂ r xs ys) (hkl : ∀ a b, r a b → shown g (k a) = shown g (l b)) :
    shown (List.map g) (each k xs) = shown (List.map g) (each l ys) := by
  induction h with
  | nil => rfl
  | cons hab _ ih =>
    refine shown_bind (hkl _ _ hab) fun a b hab => shown_bind ih fun as bs has => ?_
    rw [shown_pure, shown_pure, List.map_cons, List.map_cons, hab, has]

theorem shown_through_of_always {α' : Type} {P : σ → Prop} {r : α → α' → Prop} {f : σ → β} {k : σ → α → Reads σ}
    {l : σ → α' → Reads σ} {xs : List α} {ys : List α'} (h : Forall₂ r xs ys) (hP : ∀ s a, P s → Always P (k s a))
    (hkl : ∀ s t a b, P s → f s = f t → r a b → shown f (k s a) = shown f (l t b)) {s t : σ} (hs : P s)
    (hst : f s = f t) : shown f (through k s xs) = shown f (through l t ys) := by
  induction h generalizing s t with
  | nil => exact congrArg Except.ok hst
  | cons hab _ ih => exact shown_bind_of_always (hkl s t _ _ hs hst hab) (hP s _ hs) fun _ _ => ih

theorem shown_through {α' : Type} {r : α → α' → Prop} {f : σ → β} {k : σ → α → Reads σ} {l : σ → α' → Reads σ}
    {xs : List α} {ys : List α'} (h : Forall₂ r xs ys)
    (hkl : ∀ s t a b, f s = f t → r a b → shown f (k s a) = shown f (l t b)) {s t : σ} (hst : f s = f t) :
    shown f (through k s xs) = shown f (through l t ys) :=
  shown_through_of_always (P := fun _ => True) h (fun _ _ _ _ _ _ => trivial) (fun s t a b _ => hkl s t a b) trivial hst

end Reads

/-- What is made of things that correspond in the same way is the same. -/
theorem foldl_shown {α α' β σ : Type} {r : α → α' → Prop} {f : σ → β} {k : σ → α → σ} {l : σ → α' → σ} {xs : List α}
    {ys : List α'} (h : Forall₂ r xs ys) (hkl : ∀ s t a b, f s = f t → r a b → f (k s a) = f (l t b)) {s t : σ}
    (hst : f s = f t) : f (xs.foldl k s) = f (ys.foldl l t) := by
  induction h generalizing s t with
  | nil => exact hst
  | cons hab _ ih => exact ih (hkl s t _ _ hst hab)

namespace Read

open Reads

variable {v w : View} {N : Node → Node → Prop} {R : Site → Node → Node → Prop} {s : Site} {n m : Node} {p q : Pair}
  {i j : Item}

section

variable (h : Restyled v w N R)
include h

theorem located_restyled (hnm : R .text n m) : (v.located n).unplaced = (w.located m).unplaced :=
  congrArg (fun text => (⟨text, {}⟩ : Located)) (h.text hnm)

theorem environment_restyled (hnm : R (.each .text) n m) :
    (environment v n).unplaced = (environment w m).unplaced := by
  simp only [Environment.unplaced, environment, NameMap.map_ofList, List.map_filterMap]
  congr 2
  refine filterMap_eq_of_forall₂ (h.pairs hnm) fun p q hpq => ?_
  rw [h.keyText hpq, h.textOrEmpty hpq.value]
  split <;> rfl

theorem dictionary_restyled (hnm : R (.each .text) n m) : dictionary v n = dictionary w m := by
  rw [dictionary, dictionary]
  congr 1
  refine filterMap_eq_of_forall₂ (h.pairs hnm) fun p q hpq => ?_
  rw [h.keyText hpq]
  exact map_eq_of_rel hpq.value fun _ _ hab => congrArg _ (h.text hab)

theorem scalarValue?_restyled (hnm : R s n m) (hn : n.kind.isScalar) : scalarValue? v n = scalarValue? w m := by
  obtain ⟨hkind, hcharacters, hclass⟩ := (h.shows hnm).scalar hn
  have htext : v.text n = w.text m := congrArg String.ofList hcharacters
  simp only [scalarValue?, htext, hkind, hclass]

private theorem fieldTexts_restyled (hnm : R s n m) (key : String) (hkey : s.field key = .list .text) :
    fieldTexts v n key = fieldTexts w m key := by
  rw [fieldTexts, fieldTexts]
  obtain ⟨hn, hm⟩ | ⟨a, b, hn, hm, hab⟩ := rel_cases (h.field? hnm key)
  · rw [hn, hm]
  · rw [hkey] at hab
    simp only [hn, hm, h.texts hab rfl]

private theorem fieldText?_restyled (hnm : R s n m) (key : String) (hkey : s.field key = .text) :
    fieldText? v n key = fieldText? w m key :=
  map_eq_of_rel (hkey ▸ h.field? hnm key) fun _ _ => h.text

private theorem fieldText_restyled (hnm : R s n m) (key : String) (hkey : s.field key = .text) :
    fieldText v n key = fieldText w m key :=
  h.textOrEmpty (hkey ▸ h.field? hnm key)

private theorem withAlias_restyled (hnm : R s n m) {x y : Value} (hxy : x.unplaced = y.unplaced) :
    (withAlias v n x).unplaced = (withAlias w m y).unplaced := by
  unfold withAlias
  obtain ⟨hn, hm⟩ | ⟨a, b, hn, hm, -⟩ := rel_cases (h.aliasOf? hnm)
  · rw [hn, hm]
    cases x <;> cases y <;> simp_all [Value.unplaced]
  · have hname := h.nameOfAlias hnm hn hm
    rw [hn, hm]
    cases x <;> cases y <;> simp_all [Value.unplaced]

private theorem runField_restyled {r r' : Run} (hrun : r.unplaced = r'.unplaced)
    (hpq : PairRestyled v R Site.run.field p q) :
    (runField v r p).unplaced = (runField w r' q).unplaced := by
  obtain ⟨hp, hq⟩ | ⟨a, b, hp, hq, hab⟩ := rel_cases hpq.value
  · rw [runField, runField, hp, hq]
    exact hrun
  rw [runField, runField, hp, hq, ← h.keyText hpq]
  generalize v.keyText p = key at hab
  dsimp only
  split
  · exact congrArg₂ (fun (r : Run) text => { r with name := some text }) hrun (h.text hab)
  · exact congrArg₂ (fun (r : Run) text => { r with command := text }) hrun (h.text hab)
  · exact congrArg₂ (fun (r : Run) text => { r with shell := some text }) hrun (h.text hab)
  · exact congrArg₂ (fun (r : Run) text => { r with background := text == "true" }) hrun (h.text hab)
  · exact congrArg₂ (fun (r : Run) text => { r with workingDirectory := some text }) hrun (h.text hab)
  · exact congrArg₂ (fun (r : Run) text => { r with noOutputTimeout := some text }) hrun (h.text hab)
  · exact congrArg₂ (fun (r : Run) l => { r with condition := some l }) hrun (located_restyled h hab)
  · exact congrArg₂ (fun (r : Run) l => { r with maxAutoReruns := some l }) hrun (located_restyled h hab)
  · exact congrArg₂ (fun (r : Run) l => { r with autoRerunDelay := some l }) hrun (located_restyled h hab)
  · exact congrArg₂ (fun (r : Run) e => { r with environment := e }) hrun (environment_restyled h hab)
  · exact hrun

private theorem run_restyled (hnm : R .run n m) (isDeploy : Bool) :
    (run v p n isDeploy).unplaced = (run w q m isDeploy).unplaced := by
  rw [run, run]
  obtain ⟨hn, hm⟩ | ⟨a, b, hn, hm, hab⟩ := rel_cases (h.mapping? hnm)
  · have htext : v.text n = w.text m := h.text_of_mapping?_eq_none hnm hn fun kind hkind => by
      simpa [Site.readsText] using hkind
    rw [hn, hm]
    simp only [Run.unplaced, htext]
  · rw [hn, hm]
    exact foldl_shown (h.pairs hab) (fun _ _ _ _ hrun hpq => runField_restyled h hrun hpq) rfl

private theorem builtIn?_restyled {key : String} (hnm : R (Site.step.field key) n m) :
    (builtIn? v key p n).map Step.unplaced = (builtIn? w key q m).map Step.unplaced := by
  have hone (hnm : R .builtIn n m) (field : String) (hfield : Site.builtIn.field field = .text) :=
    fieldText_restyled h hnm field hfield
  have hsome (hnm : R .builtIn n m) (field : String) (hfield : Site.builtIn.field field = .text) :=
    fieldText?_restyled h hnm field hfield
  have hmany (hnm : R .builtIn n m) (field : String) (hfield : Site.builtIn.field field = .list .text) :=
    fieldTexts_restyled h hnm field hfield
  unfold builtIn?
  split
  · simp only [Option.map_some, Step.unplaced, hsome hnm "path" rfl]
  · simp only [Option.map_some, Step.unplaced, hsome hnm "docker_layer_caching" rfl, hsome hnm "version" rfl]
  · simp only [Option.map_some, Step.unplaced, hsome hnm "name" rfl, hone hnm "key" rfl, hmany hnm "paths" rfl]
  · simp only [Option.map_some, Step.unplaced, hsome hnm "name" rfl, hsome hnm "key" rfl, hmany hnm "keys" rfl]
  · simp only [Option.map_some, Step.unplaced, hone hnm "path" rfl, hsome hnm "destination" rfl]
  · simp only [Option.map_some, Step.unplaced, hone hnm "path" rfl]
  · simp only [Option.map_some, Step.unplaced, hone hnm "root" rfl, hmany hnm "paths" rfl]
  · simp only [Option.map_some, Step.unplaced, hone hnm "at" rfl]
  · simp only [Option.map_some, Step.unplaced, hmany hnm "fingerprints" rfl]
  · simp only [Option.map_some, Step.unplaced, h.characters hnm]
  · rfl

theorem isEmpty_directPairs_restyled (hnm : R s n m) :
    (v.directPairs n).isEmpty = (w.directPairs m).isEmpty := by
  rw [Bool.eq_iff_iff, List.isEmpty_iff_length_eq_zero, List.isEmpty_iff_length_eq_zero,
    (h.directPairs hnm).length_eq]

/-- An item of a list that is a step is one in both views. -/
theorem isStepItem_restyled (hij : ItemRestyled R .listItem i j) : isStepItem v i = isStepItem w j :=
  any_eq_of_rel hij.value fun a b hab => by
    rw [isEmpty_directPairs_restyled h hab]
    by_cases hmapping : (v.mapping? a).isSome
    · rw [((h.shows hab).listItem rfl hmapping).1]
    · have hnone : v.mapping? a = none := by simpa using hmapping
      have hempty : (w.directPairs b).isEmpty := by
        rw [← isEmpty_directPairs_restyled h hab, directPairs, hnone]
        rfl
      rw [hempty, Bool.not_true, Bool.and_false, Bool.and_false]

/-- An item of a list that is a step stands for a value that shows the same as a step. -/
theorem itemRestyled_of_isStepItem (hij : ItemRestyled R .listItem i j) (hi : isStepItem v i) :
    Option.Rel (R .step) i.value j.value := by
  obtain ⟨hiv, hjv⟩ | ⟨a, b, hiv, hjv, hab⟩ := rel_cases hij.value
  · rw [hiv, hjv]
    exact .none
  rw [isStepItem, hiv, Option.any_some, Bool.and_eq_true, decide_eq_true_iff, Bool.not_eq_true'] at hi
  have hmapping : (v.mapping? a).isSome := by
    by_contra hnone
    rw [directPairs, Option.not_isSome_iff_eq_none.mp hnone] at hi
    cases hi.2
  rw [hiv, hjv]
  exact .some (((h.shows hab).listItem rfl hmapping).2 hi.1)

end

/-- Pairs that give values to parameters and show the same. -/
abbrev GivenRestyled (v : View) (R : Site → Node → Node → Prop) : Pair → Pair → Prop :=
  PairRestyled v R fun _ => .value

/-- What the readers of steps and values give within some calls in each other, but for places, is the same in both
views. -/
structure CallsRestyled (v w : View) (R : Site → Node → Node → Prop) (fuel : Nat) : Prop where
  steps : ∀ {n m}, R (.list .step) n m →
    shown (List.map Step.unplaced) (steps v fuel n) = shown (List.map Step.unplaced) (steps w fuel m)
  step : ∀ {i j : Item}, Option.Rel (R .step) i.value j.value →
    shown (List.map Step.unplaced) (step v fuel i) = shown (List.map Step.unplaced) (step w fuel j)
  conditional : ∀ {n m}, R .conditional n m →
    shown (List.map Step.unplaced) (conditional v fuel n) = shown (List.map Step.unplaced) (conditional w fuel m)
  invocation : ∀ {p q n m} name, R .call n m →
    shown Invocation.unplaced (invocation v fuel name p n) = shown Invocation.unplaced (invocation w fuel name q m)
  assignments : ∀ {ps qs}, Forall₂ (GivenRestyled v R) ps qs →
    shown (List.map Assignment.unplaced) (assignments v fuel ps) =
      shown (List.map Assignment.unplaced) (assignments w fuel qs)
  assignment : ∀ {p q}, GivenRestyled v R p q →
    shown (Option.map Assignment.unplaced) (assignment v fuel p) =
      shown (Option.map Assignment.unplaced) (assignment w fuel q)
  listItems : ∀ {n m} name, R .value n m →
    shown (List.map Assignment.unplaced) (listItems v fuel name n) =
      shown (List.map Assignment.unplaced) (listItems w fuel name m)

/-- A key that is no built-in step and no other word for a step names a command. -/
theorem stepField_eq_call {key : String} (hrun : key ≠ "run") (hdeploy : key ≠ "deploy")
    (hconditional : ¬ (key = "when" ∨ key = "unless")) (hbuiltIn : builtIn? v key p n = none) :
    Site.stepField key = .call := by
  obtain ⟨hwhen, hunless⟩ := not_or.mp hconditional
  unfold builtIn? at hbuiltIn
  unfold Site.stepField
  split <;> first | contradiction | rfl

theorem map_flatten_eq {α β : Type} {f : α → β} {xss yss : List (List α)}
    (h : xss.map (List.map f) = yss.map (List.map f)) : xss.flatten.map f = yss.flatten.map f := by
  rw [List.map_flatten, List.map_flatten, h]

namespace CallsRestyled

variable {fuel : Nat}

private theorem zero : CallsRestyled v w R 0 where
  steps _ := rfl
  step _ := rfl
  conditional _ := rfl
  invocation _ _ := rfl
  assignments _ := rfl
  assignment _ := rfl
  listItems _ _ := rfl

private theorem insertRead {as bs : Assignments} {x y : Option Assignment}
    (has : as.map Assignment.unplaced = bs.map Assignment.unplaced) :
    x.map Assignment.unplaced = y.map Assignment.unplaced →
      List.map Assignment.unplaced (match x with | some a => as.insert a | none => as) =
        List.map Assignment.unplaced (match y with | some b => bs.insert b | none => bs) := by
  intro hxy
  obtain ⟨rfl, rfl⟩ | ⟨a, b, rfl, rfl, hab⟩ := option_cases hxy
  · exact has
  · exact Assignments.map_insert_congr has hab

theorem assignments_succ (hcalls : CallsRestyled v w R fuel) {ps qs : List Pair}
    (hps : Forall₂ (GivenRestyled v R) ps qs) :
    shown (List.map Assignment.unplaced) (Read.assignments v (fuel + 1) ps) =
      shown (List.map Assignment.unplaced) (Read.assignments w (fuel + 1) qs) := by
  rw [Read.assignments, Read.assignments]
  refine shown_bind (shown_each hps fun _ _ => hcalls.assignment) fun xs ys hxy => ?_
  have hread : Forall₂ (fun x y => Option.map Assignment.unplaced x = Option.map Assignment.unplaced y) xs ys := by
    rwa [← List.forall₂_map_right_iff, ← List.forall₂_map_left_iff, List.forall₂_eq_eq_eq]
  rw [shown_pure, shown_pure]
  refine congrArg Except.ok (foldl_shown hread (fun as bs x y has hxy => ?_) rfl)
  exact insertRead has hxy

variable (h : Restyled v w N R) (hcalls : CallsRestyled v w R fuel)
include h hcalls

theorem steps_succ (hnm : R (.list .step) n m) : shown (List.map Step.unplaced) (Read.steps v (fuel + 1) n) =
    shown (List.map Step.unplaced) (Read.steps w (fuel + 1) m) := by
  rw [Read.steps, Read.steps]
  refine shown_bind (shown_each (h.items hnm) fun i j hij => hcalls.step hij.value) fun xss yss hxy => ?_
  exact congrArg Except.ok (map_flatten_eq hxy)

theorem conditional_succ (hnm : R .conditional n m) :
    shown (List.map Step.unplaced) (Read.conditional v (fuel + 1) n) =
      shown (List.map Step.unplaced) (Read.conditional w (fuel + 1) m) := by
  rw [Read.conditional, Read.conditional]
  refine shown_bind (shown_each (h.pairs hnm) fun p q hpq => ?_) fun xss yss hxy => congrArg Except.ok (map_flatten_eq hxy)
  obtain ⟨hp, hq⟩ | ⟨a, b, hp, hq, hab⟩ := rel_cases hpq.value
  · simp only [hp, hq]
  rw [hp, hq, ← h.keyText hpq]
  generalize v.keyText p = key at hab
  dsimp only
  split
  · subst key
    exact hcalls.steps hab
  · rfl

theorem invocation_succ (name : String) (hnm : R .call n m) :
    shown Invocation.unplaced (Read.invocation v (fuel + 1) name p n) =
      shown Invocation.unplaced (Read.invocation w (fuel + 1) name q m) := by
  rw [Read.invocation, Read.invocation]
  obtain ⟨hn, hm⟩ | ⟨a, b, hn, hm, hab⟩ := rel_cases (h.mapping? hnm)
  · rw [hn, hm]
    simp only [shown_pure, Invocation.unplaced_eq]
  simp only [hn, hm]
  refine shown_bind (hcalls.assignments ?_) fun as bs has => ?_
  · refine forall₂_filter_of (h.pairs hab) (fun p q hpq => by rw [h.keyText hpq]) fun p q hpq hkey => ?_
    have hfield : Site.call.field (v.keyText p) = .value := if_neg (by simpa using hkey)
    exact ⟨hpq.key, hfield ▸ hpq.rawValue, hfield ▸ hpq.value⟩
  · simp only [shown_pure, Invocation.unplaced_eq, has]

theorem listItems_succ (name : String) (hnm : R .value n m) :
    shown (List.map Assignment.unplaced) (Read.listItems v (fuel + 1) name n) =
      shown (List.map Assignment.unplaced) (Read.listItems w (fuel + 1) name m) := by
  rw [Read.listItems, Read.listItems]
  refine shown_bind (f := List.map (Option.map Assignment.unplaced)) (shown_each (h.items hnm) fun i j hij => ?_)
    fun xs ys hxy => ?_
  · rw [← isStepItem_restyled h hij]
    split
    · rename_i hstep
      refine shown_bind (hcalls.step (itemRestyled_of_isStepItem h hij hstep)) fun as bs has => ?_
      simp [Assignment.unplaced, Value.unplaced, has]
    · have hscalar : (i.value.bind v.scalar?).bind (scalarValue? v) = (j.value.bind w.scalar?).bind (scalarValue? w) := by
        obtain ⟨hi, hj⟩ | ⟨a, b, hi, hj, hab⟩ := rel_cases hij.value
        · rw [hi, hj]
          rfl
        rw [hi, hj, Option.bind_some, Option.bind_some]
        obtain ⟨ha, hb⟩ | ⟨x, y, ha, hb, hxy⟩ := rel_cases (h.scalar? hab)
        · rw [ha, hb]
          rfl
        · rw [ha, hb]
          exact scalarValue?_restyled h hxy (Option.filter_eq_some_iff.mp ha).2
      rw [hscalar, shown_pure, shown_pure, Option.map_map, Option.map_map]
      congr 2
  · simp only [shown_pure]
    have hfilter (xs : List (Option Assignment)) : (xs.filterMap id).map Assignment.unplaced =
        (xs.map (Option.map Assignment.unplaced)).filterMap id := by
      rw [List.map_filterMap, List.filterMap_map]
      rfl
    rw [hfilter, hfilter, hxy]

theorem step_succ (hij : Option.Rel (R .step) i.value j.value) :
    shown (List.map Step.unplaced) (Read.step v (fuel + 1) i) =
      shown (List.map Step.unplaced) (Read.step w (fuel + 1) j) := by
  rw [Read.step, Read.step]
  obtain ⟨hi, hj⟩ | ⟨n, m, hi, hj, hnm⟩ := rel_cases hij
  · rw [hi, hj]
    simp [Step.unplaced, Invocation.unplaced]
  rw [hi, hj]
  dsimp only
  obtain ⟨hn, hm⟩ | ⟨a, b, hn, hm, hab⟩ := rel_cases (h.mapping? hnm)
  · have htext : v.text n = w.text m := h.text_of_mapping?_eq_none hnm hn fun kind hkind => by
      simpa [Site.readsText] using hkind
    have hkind : n.kind = m.kind := (h.shows hnm).step rfl (by simp [hn])
    rw [hn, hm, htext, hkind]
    dsimp only
    split <;> simp [Step.unplaced, Invocation.unplaced, Run.unplaced]
  rw [hn, hm]
  dsimp only
  obtain ⟨ha, hb⟩ | ⟨p, q, ha, hb, hpq⟩ := rel_cases (rel_head? (h.pairs hab))
  · rw [ha, hb]
  rw [ha, hb]
  dsimp only
  obtain ⟨hp, hq⟩ | ⟨inner, inner', hp, hq, hinner⟩ := rel_cases hpq.value
  · rw [hp, hq]
  rw [hp, hq, ← h.keyText hpq]
  generalize v.keyText p = key at hinner
  dsimp only
  split
  · subst key
    simp only [shown_pure, List.map_singleton, Step.unplaced, run_restyled (q := q) h hinner]
  split
  · subst key
    simp only [shown_pure, List.map_singleton, Step.unplaced, run_restyled (q := q) h hinner]
  split
  · rename_i hkey
    rcases hkey with rfl | rfl
    · exact hcalls.conditional hinner
    · exact hcalls.conditional hinner
  rename_i hrun hdeploy hconditional
  have hbuiltIn := builtIn?_restyled h (p := p) (q := q) hinner
  cases hv : builtIn? v key p inner with
  | some st =>
    obtain ⟨st', hw, hst⟩ := Option.map_eq_some_iff.mp (hbuiltIn.symm.trans (congrArg _ hv))
    simp [hw, hst]
  | none =>
    have hw := Option.map_eq_none_iff.mp (hbuiltIn.symm.trans (congrArg _ hv))
    have hcall : R .call inner inner' := stepField_eq_call hrun hdeploy hconditional hv ▸ hinner
    simp only [hw]
    refine shown_bind (hcalls.invocation key hcall) fun call call' hcall => ?_
    simp [Step.unplaced, hcall]

theorem assignment_succ (hpq : GivenRestyled v R p q) :
    shown (Option.map Assignment.unplaced) (Read.assignment v (fuel + 1) p) =
      shown (Option.map Assignment.unplaced) (Read.assignment w (fuel + 1) q) := by
  unfold Read.assignment
  obtain ⟨hp, hq⟩ | ⟨key, key', hp, hq, hkey⟩ := rel_cases hpq.key
  · rw [hp, hq]
  obtain ⟨hpr, hqr⟩ | ⟨raw, raw', hpr, hqr, hraw⟩ := rel_cases hpq.rawValue
  · rw [hp, hq, hpr, hqr]
    simp only [shown_note_bind, shown_pure]
  have finish (x y : Option Value) (hxy : x.map Value.unplaced = y.map Value.unplaced) :
      (x.map fun value => (⟨w.text key', withAlias v raw value, raw.range, p.range⟩ : Assignment)).map
          Assignment.unplaced =
        (y.map fun value => (⟨w.text key', withAlias w raw' value, raw'.range, q.range⟩ : Assignment)).map
          Assignment.unplaced := by
    obtain ⟨rfl, rfl⟩ | ⟨value, value', rfl, rfl, hvalues⟩ := option_cases hxy
    · rfl
    · simp only [Option.map_some, Assignment.unplaced_eq]
      rw [withAlias_restyled h hraw hvalues]
  simp only [hp, hq, hpr, hqr, h.text hkey]
  obtain ⟨hn, hm⟩ | ⟨n, m, hn, hm, hnm⟩ := rel_cases (h.content? hraw)
  · rw [hn, hm]
    rfl
  simp only [hn, hm, ← h.isSequence hnm, ← h.isMapping hnm, ← h.isScalar hnm]
  split
  · refine shown_bind (hcalls.listItems _ hraw) fun as bs has =>
      congrArg Except.ok (finish (some (.list as)) (some (.list bs)) ?_)
    simp [Value.unplaced, has]
  split
  · refine shown_bind (hcalls.assignments ?_) fun as bs has =>
      congrArg Except.ok (finish (some (.map as)) (some (.map bs)) ?_)
    · exact forall₂_filter_of (h.pairs hnm)
        (fun p q hpq => by rw [isSome_eq_of_rel hpq.key, isSome_eq_of_rel hpq.rawValue]) fun _ _ hpq _ => hpq
    · simp [Value.unplaced, has]
  split
  · exact congrArg Except.ok (finish _ _ (by rw [scalarValue?_restyled h hnm ‹_›]))
  · rfl

private theorem succ : CallsRestyled v w R (fuel + 1) where
  steps := hcalls.steps_succ h
  step := hcalls.step_succ h
  conditional := hcalls.conditional_succ h
  invocation := hcalls.invocation_succ h
  assignments := hcalls.assignments_succ
  assignment := hcalls.assignment_succ h
  listItems := hcalls.listItems_succ h

end CallsRestyled

theorem callsRestyled (h : Restyled v w N R) (fuel : Nat) : CallsRestyled v w R fuel := by
  induction fuel with
  | zero => exact .zero
  | succ fuel ih => exact ih.succ h

section

variable (h : Restyled v w N R)
include h

theorem readSteps_restyled (hnm : R (.list .step) n m) :
    shown (List.map Step.unplaced) (readSteps v n) = shown (List.map Step.unplaced) (readSteps w m) := by
  rw [← steps_of_fuelFor_le (Nat.le_max_left _ (fuelFor w [m])),
    ← steps_of_fuelFor_le (Nat.le_max_right (fuelFor v [n]) _)]
  exact (callsRestyled h _).steps hnm

theorem readStep_restyled (hij : Option.Rel (R .step) i.value j.value) :
    shown (List.map Step.unplaced) (readStep v i) = shown (List.map Step.unplaced) (readStep w j) := by
  rw [← step_of_fuelFor_le (Nat.le_max_left _ (fuelFor w j.value.toList)),
    ← step_of_fuelFor_le (Nat.le_max_right (fuelFor v i.value.toList) _)]
  exact (callsRestyled h _).step hij

theorem readAssignment_restyled (hpq : GivenRestyled v R p q) :
    shown (Option.map Assignment.unplaced) (readAssignment v p) =
      shown (Option.map Assignment.unplaced) (readAssignment w q) := by
  rw [← assignment_of_fuelFor_le (Nat.le_max_left _ (fuelFor w q.rawValue.toList)),
    ← assignment_of_fuelFor_le (Nat.le_max_right (fuelFor v p.rawValue.toList) _)]
  exact (callsRestyled h _).assignment hpq

theorem readAssignments_restyled (hnm : R (.each .value) n m) :
    shown (List.map Assignment.unplaced) (readAssignments v n) =
      shown (List.map Assignment.unplaced) (readAssignments w m) := by
  rw [← assignments_of_fuelFor_le (Nat.le_max_left _ (fuelFor w [m])),
    ← assignments_of_fuelFor_le (Nat.le_max_right (fuelFor v [n]) _)]
  exact (callsRestyled h _).assignments (h.pairs hnm)

end

end Read

end PipelineLint
