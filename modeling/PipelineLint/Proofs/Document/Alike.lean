import PipelineLint.Document.Parse
import PipelineLint.Proofs.Document.Calls
import PipelineLint.Proofs.Yaml.Alike

/-! # Reading from views that show the same

What is read from a node depends on no more than the views show: nodes that correspond in two views that show the same
are read as the same entities, with the same findings.
-/

namespace PipelineLint

open List (Forall₂)
open Yaml Yaml.View

namespace Reads

variable {α β γ σ : Type} {r : α → β → Prop}

/-- Where the first reading ends, the second one ends the same way. -/
def Below (x y : Reads α) : Prop := ∀ result, x = Except.ok result → y = Except.ok result

theorem Below.refl (x : Reads α) : Below x x := fun _ h => h

private theorem Below.endless (x : Reads α) : Below Reads.endless x := fun _ h => nomatch h

theorem Below.bind {x y : Reads α} {f g : α → Reads β} (hxy : Below x y) (hfg : ∀ a, Below (f a) (g a)) :
    Below (x >>= f) (y >>= g) := by
  intro result hresult
  cases hx : x with
  | error e => simp [hx, Bind.bind] at hresult
  | ok first =>
    obtain ⟨a, findings⟩ := first
    cases hf : f a with
    | error e => simp [hx, hf, Bind.bind] at hresult
    | ok second =>
      rw [← hresult]
      simp only [Bind.bind, hx, hxy _ hx, hf, hfg a _ hf]
      rfl

theorem Below.each {f : α → Reads γ} {g : β → Reads γ} {xs : List α} {ys : List β} (h : Forall₂ r xs ys)
    (hfg : ∀ a b, r a b → Below (f a) (g b)) : Below (Reads.each f xs) (Reads.each g ys) := by
  induction h with
  | nil => exact .refl _
  | cons hab _ ih => exact (hfg _ _ hab).bind fun _ => ih.bind fun _ => .refl _

theorem eq_of_below {x y : Reads α} (hxy : Below x y) (hyx : Below y x) : x = y := by
  cases x with
  | ok result => exact (hxy result rfl).symm
  | error e =>
    cases y with
    | ok result => exact hyx result rfl
    | error e' => rfl

/-- A reading that ends just where another one below it does is the same. -/
theorem eq_of_below_of_returns {x y : Reads α} (hxy : Below x y) (h : Returns y → Returns x) : x = y := by
  refine eq_of_below hxy fun result hy => ?_
  obtain ⟨result', hx⟩ := h ⟨result, hy⟩
  rw [hx, ← hy, hxy result' hx]

theorem each_congr {f : α → Reads γ} {g : β → Reads γ} {xs : List α} {ys : List β} (h : Forall₂ r xs ys)
    (hfg : ∀ a b, r a b → f a = g b) : each f xs = each g ys := by
  induction h with
  | nil => rfl
  | cons hab _ ih => rw [each, each, hfg _ _ hab, ih]

theorem through_congr {f : σ → α → Reads σ} {g : σ → β → Reads σ} {xs : List α} {ys : List β} (h : Forall₂ r xs ys)
    (hfg : ∀ s a b, r a b → f s a = g s b) (s : σ) : through f s xs = through g s ys := by
  induction h generalizing s with
  | nil => rfl
  | cons hab _ ih => simp only [through, hfg s _ _ hab, ih]

end Reads

namespace Read

open Reads

variable {v w : View} {R : Node → Node → Prop} {n m : Node} {p q : Pair} {i j : Item}

section

variable (h : Alike v w R)
include h

theorem environment_alike (hnm : R n m) : environment v n = environment w m := by
  rw [environment, environment, h.range hnm]
  congr 2
  exact filterMap_eq_of_forall₂ (h.pairs hnm) fun p q hpq => by
    simp only [h.keyText hpq, h.textOrEmpty hpq.value, h.pairRange hpq]

theorem dictionary_alike (hnm : R n m) : dictionary v n = dictionary w m := by
  rw [dictionary, dictionary]
  congr 1
  exact filterMap_eq_of_forall₂ (h.pairs hnm) fun p q hpq => by
    rw [h.keyText hpq]
    exact map_eq_of_rel hpq.value fun _ _ hab => by rw [h.text hab]

theorem scalarValue?_alike (hnm : R n m) : scalarValue? v n = scalarValue? w m := by
  have hkinds : n.namedChildren.head?.map Node.kind = m.namedChildren.head?.map Node.kind :=
    map_eq_of_rel (rel_head? (h.namedChildren hnm)) fun _ _ => h.kind
  simp only [scalarValue?, h.text hnm, h.kind hnm, hkinds]

private theorem fieldTexts_alike (hnm : R n m) (key : String) : fieldTexts v n key = fieldTexts w m key := by
  rw [fieldTexts, fieldTexts]
  obtain ⟨hn, hm⟩ | ⟨a, b, hn, hm, hab⟩ := rel_cases (h.field? hnm key)
  · rw [hn, hm]
  · simp only [hn, hm, h.texts hab]

private theorem fieldText?_alike (hnm : R n m) (key : String) : fieldText? v n key = fieldText? w m key :=
  map_eq_of_rel (h.field? hnm key) fun _ _ => h.text

private theorem fieldText_alike (hnm : R n m) (key : String) : fieldText v n key = fieldText w m key :=
  h.textOrEmpty (h.field? hnm key)

private theorem withAlias_alike (hnm : R n m) (value : Value) : withAlias v n value = withAlias w m value := by
  unfold withAlias
  obtain ⟨hn, hm⟩ | ⟨a, b, hn, hm, hab⟩ := rel_cases (h.aliasOf? hnm)
  · rw [hn, hm]
    cases value <;> rfl
  · rw [hn, hm]
    cases value <;> simp only [h.nameOfAlias hab]

private theorem runField_alike (hpq : PairAlike R p q) (run : Run) : runField v run p = runField w run q := by
  rw [runField, runField]
  obtain ⟨hp, hq⟩ | ⟨a, b, hp, hq, hab⟩ := rel_cases hpq.value
  · rw [hp, hq]
  · simp only [hp, hq, h.keyText hpq, h.text hab, h.rawText hab, h.range hab, h.located hab, environment_alike h hab]

private theorem run_alike (hpq : PairAlike R p q) (hnm : R n m) (isDeploy : Bool) :
    run v p n isDeploy = run w q m isDeploy := by
  rw [run, run, h.keyRange hpq]
  obtain ⟨hn, hm⟩ | ⟨a, b, hn, hm, hab⟩ := rel_cases (h.mapping? hnm)
  · simp only [hn, hm, h.text hnm, h.rawText hnm, h.range hnm]
  · simp only [hn, hm]
    exact foldl_eq_of_forall₂ (h.pairs hab) (fun run p q hpq => runField_alike h hpq run) _

private theorem builtIn?_alike (key : String) (hpq : PairAlike R p q) (hnm : R n m) :
    builtIn? v key p n = builtIn? w key q m := by
  simp only [builtIn?, h.keyRange hpq, h.valueOrPairRange hpq, h.range hnm, h.characters hnm,
    fieldTexts_alike h hnm, fieldText?_alike h hnm, fieldText_alike h hnm]

theorem isEmpty_directPairs_alike (hnm : R n m) : (v.directPairs n).isEmpty = (w.directPairs m).isEmpty := by
  rw [Bool.eq_iff_iff, List.isEmpty_iff_length_eq_zero, List.isEmpty_iff_length_eq_zero,
    (h.directPairs hnm).length_eq]

private theorem isStepItem_alike (hij : ItemAlike R i j) : isStepItem v i = isStepItem w j :=
  any_eq_of_rel hij.value fun _ _ hab => by rw [h.kind hab, isEmpty_directPairs_alike h hab]

end

/-- What the readers of steps and values give with some fuel, they give with more of it in the other view. -/
structure CallsBelow (v w : View) (R : Node → Node → Prop) (fuel fuel' : Nat) : Prop where
  steps : ∀ {n m}, R n m → Below (steps v fuel n) (steps w fuel' m)
  step : ∀ {i j}, ItemAlike R i j → Below (step v fuel i) (step w fuel' j)
  conditional : ∀ {n m}, R n m → Below (conditional v fuel n) (conditional w fuel' m)
  invocation : ∀ {p q n m} name, PairAlike R p q → R n m →
    Below (invocation v fuel name p n) (invocation w fuel' name q m)
  assignments : ∀ {ps qs}, Forall₂ (PairAlike R) ps qs → Below (assignments v fuel ps) (assignments w fuel' qs)
  assignment : ∀ {p q}, PairAlike R p q → Below (assignment v fuel p) (assignment w fuel' q)
  listItems : ∀ {n m} name, R n m → Below (listItems v fuel name n) (listItems w fuel' name m)

namespace CallsBelow

variable {fuel fuel' : Nat}

private theorem zero : CallsBelow v w R 0 fuel' where
  steps _ := .endless _
  step _ := .endless _
  conditional _ := .endless _
  invocation _ _ _ := .endless _
  assignments _ := .endless _
  assignment _ := .endless _
  listItems _ _ := .endless _

theorem assignments_succ (hcalls : CallsBelow v w R fuel fuel') {ps qs : List Pair}
    (hps : Forall₂ (PairAlike R) ps qs) :
    Below (Read.assignments v (fuel + 1) ps) (Read.assignments w (fuel' + 1) qs) := by
  rw [Read.assignments, Read.assignments]
  exact (Below.each hps fun _ _ => hcalls.assignment).bind fun _ => .refl _

variable (h : Alike v w R) (hcalls : CallsBelow v w R fuel fuel')
include h hcalls

theorem steps_succ (hnm : R n m) : Below (Read.steps v (fuel + 1) n) (Read.steps w (fuel' + 1) m) := by
  rw [Read.steps, Read.steps]
  exact (Below.each (h.items hnm) fun _ _ => hcalls.step).bind fun _ => .refl _

theorem conditional_succ (hnm : R n m) :
    Below (Read.conditional v (fuel + 1) n) (Read.conditional w (fuel' + 1) m) := by
  rw [Read.conditional, Read.conditional]
  refine (Below.each (h.pairs hnm) fun p q hpq => ?_).bind fun _ => .refl _
  obtain ⟨hp, hq⟩ | ⟨a, b, hp, hq, hab⟩ := rel_cases hpq.value
  · simp only [hp, hq]
    exact .refl _
  · simp only [hp, hq, h.keyText hpq]
    split
    · exact hcalls.steps hab
    · exact .refl _

theorem invocation_succ (name : String) (hpq : PairAlike R p q) (hnm : R n m) :
    Below (Read.invocation v (fuel + 1) name p n) (Read.invocation w (fuel' + 1) name q m) := by
  rw [Read.invocation, Read.invocation, h.keyRange hpq]
  obtain ⟨hn, hm⟩ | ⟨a, b, hn, hm, hab⟩ := rel_cases (h.mapping? hnm)
  · simp only [hn, hm]
    exact .refl _
  · simp only [hn, hm, h.range hab]
    refine (hcalls.assignments ?_).bind fun _ => .refl _
    exact forall₂_filter (h.pairs hab) fun _ _ hpq => by rw [h.keyText hpq]

theorem listItems_succ (name : String) (hnm : R n m) :
    Below (Read.listItems v (fuel + 1) name n) (Read.listItems w (fuel' + 1) name m) := by
  rw [Read.listItems, Read.listItems]
  refine (Below.each (h.items hnm) fun i j hij => ?_).bind fun _ => .refl _
  have hscalar : (i.value.bind v.scalar?).bind (scalarValue? v) = (j.value.bind w.scalar?).bind (scalarValue? w) :=
    bind_eq_of_rel (rel_bind hij.value fun _ _ => h.scalar?) fun _ _ => scalarValue?_alike h
  rw [isStepItem_alike h hij, h.itemRange hij, hscalar]
  split
  · exact (hcalls.step hij).bind fun _ => .refl _
  · exact .refl _

theorem step_succ (hij : ItemAlike R i j) : Below (Read.step v (fuel + 1) i) (Read.step w (fuel' + 1) j) := by
  rw [Read.step, Read.step]
  obtain ⟨hi, hj⟩ | ⟨n, m, hi, hj, hnm⟩ := rel_cases hij.value
  · simp only [hi, hj, h.markerRange hij]
    exact .refl _
  simp only [hi, hj]
  obtain ⟨hn, hm⟩ | ⟨a, b, hn, hm, hab⟩ := rel_cases (h.mapping? hnm)
  · simp only [hn, hm, h.kind hnm, h.text hnm, h.range hnm]
    exact .refl _
  simp only [hn, hm]
  obtain ⟨ha, hb⟩ | ⟨p, q, ha, hb, hpq⟩ := rel_cases (rel_head? (h.pairs hab))
  · simp only [ha, hb]
    exact .refl _
  simp only [ha, hb]
  obtain ⟨hp, hq⟩ | ⟨inner, inner', hp, hq, hinner⟩ := rel_cases hpq.value
  · simp only [hp, hq]
    exact .refl _
  simp only [hp, hq, h.keyText hpq, run_alike h hpq hinner, builtIn?_alike h _ hpq hinner]
  split
  · exact .refl _
  split
  · exact .refl _
  split
  · exact hcalls.conditional hinner
  split
  · exact .refl _
  · exact (hcalls.invocation _ hpq hinner).bind fun _ => .refl _

theorem assignment_succ (hpq : PairAlike R p q) :
    Below (Read.assignment v (fuel + 1) p) (Read.assignment w (fuel' + 1) q) := by
  unfold Read.assignment
  obtain ⟨hp, hq⟩ | ⟨key, key', hp, hq, hkey⟩ := rel_cases hpq.key
  · simp only [hp, hq]
    exact .refl _
  obtain ⟨hpr, hqr⟩ | ⟨raw, raw', hpr, hqr, hraw⟩ := rel_cases hpq.rawValue
  · simp only [hp, hq, hpr, hqr, h.range hkey]
    exact .refl _
  simp only [hp, hq, hpr, hqr, h.text hkey, h.range hraw, h.pairRange hpq, withAlias_alike h hraw]
  obtain ⟨hn, hm⟩ | ⟨n, m, hn, hm, hnm⟩ := rel_cases (h.content? hraw)
  · simp only [hn, hm]
    exact .refl _
  simp only [hn, hm, h.kind hnm, scalarValue?_alike h hnm]
  split
  · exact (hcalls.listItems _ hraw).bind fun _ => .refl _
  split
  · refine (hcalls.assignments ?_).bind fun _ => .refl _
    exact forall₂_filter (h.pairs hnm) fun _ _ hpq => by
      rw [isSome_eq_of_rel hpq.key, isSome_eq_of_rel hpq.rawValue]
  · exact .refl _

private theorem succ : CallsBelow v w R (fuel + 1) (fuel' + 1) where
  steps := hcalls.steps_succ h
  step := hcalls.step_succ h
  conditional := hcalls.conditional_succ h
  invocation := hcalls.invocation_succ h
  assignments := hcalls.assignments_succ
  assignment := hcalls.assignment_succ h
  listItems := hcalls.listItems_succ h

end CallsBelow

/-- More fuel does not change what a reader of steps or values gives, be it in another view. -/
theorem callsBelow (h : Alike v w R) {fuel fuel' : Nat} (hle : fuel ≤ fuel') : CallsBelow v w R fuel fuel' := by
  induction fuel generalizing fuel' with
  | zero => exact .zero
  | succ fuel ih =>
    obtain ⟨fuel', rfl⟩ := Nat.exists_eq_add_of_le' hle
    exact (ih (Nat.le_of_succ_le_succ hle)).succ h

theorem steps_of_fuelFor_le {fuel : Nat} (h : fuelFor v [n] ≤ fuel) : steps v fuel n = readSteps v n :=
  (eq_of_below_of_returns ((callsBelow (.refl v) h).steps rfl) fun hends =>
    returns_readSteps_iff.mpr fun hcircular => hcircular.not_endsWithin fuel hends).symm

theorem step_of_fuelFor_le {fuel : Nat} (h : fuelFor v i.value.toList ≤ fuel) : step v fuel i = readStep v i :=
  (eq_of_below_of_returns ((callsBelow (.refl v) h).step (.refl i)) fun hends =>
    returns_readStep_iff.mpr fun hcircular => hcircular.not_endsWithin fuel hends).symm

theorem assignment_of_fuelFor_le {fuel : Nat} (h : fuelFor v p.rawValue.toList ≤ fuel) :
    assignment v fuel p = readAssignment v p :=
  (eq_of_below_of_returns ((callsBelow (.refl v) h).assignment (.refl p)) fun hends =>
    returns_readAssignment_iff.mpr fun hcircular => hcircular.not_endsWithin fuel hends).symm

theorem assignments_of_fuelFor_le {fuel : Nat} (h : fuelFor v [n] ≤ fuel) :
    assignments v fuel (v.pairs n) = readAssignments v n := by
  have hpairs := (Alike.refl v).pairs (n := n) rfl
  exact (eq_of_below_of_returns ((callsBelow (.refl v) h).assignments hpairs) fun hends =>
    returns_readAssignments_iff.mpr fun hcircular => hcircular.not_endsWithin fuel hends).symm

section

variable (h : Alike v w R)
include h

theorem readSteps_alike (hnm : R n m) : readSteps v n = readSteps w m := by
  rw [← steps_of_fuelFor_le (Nat.le_max_left _ (fuelFor w [m])),
    ← steps_of_fuelFor_le (Nat.le_max_right (fuelFor v [n]) _)]
  exact eq_of_below ((callsBelow h (Nat.le_refl _)).steps hnm) ((callsBelow h.symm (Nat.le_refl _)).steps hnm)

theorem readStep_alike (hij : ItemAlike R i j) : readStep v i = readStep w j := by
  rw [← step_of_fuelFor_le (Nat.le_max_left _ (fuelFor w j.value.toList)),
    ← step_of_fuelFor_le (Nat.le_max_right (fuelFor v i.value.toList) _)]
  exact eq_of_below ((callsBelow h (Nat.le_refl _)).step hij) ((callsBelow h.symm (Nat.le_refl _)).step hij.symm)

theorem readAssignment_alike (hpq : PairAlike R p q) : readAssignment v p = readAssignment w q := by
  rw [← assignment_of_fuelFor_le (Nat.le_max_left _ (fuelFor w q.rawValue.toList)),
    ← assignment_of_fuelFor_le (Nat.le_max_right (fuelFor v p.rawValue.toList) _)]
  exact eq_of_below ((callsBelow h (Nat.le_refl _)).assignment hpq)
    ((callsBelow h.symm (Nat.le_refl _)).assignment hpq.symm)

theorem readAssignments_alike (hnm : R n m) : readAssignments v n = readAssignments w m := by
  rw [← assignments_of_fuelFor_le (Nat.le_max_left _ (fuelFor w [m])),
    ← assignments_of_fuelFor_le (Nat.le_max_right (fuelFor v [n]) _)]
  exact eq_of_below ((callsBelow h (Nat.le_refl _)).assignments (h.pairs hnm))
    ((callsBelow h.symm (Nat.le_refl _)).assignments (h.symm.pairs hnm))

end

end Read

end PipelineLint
