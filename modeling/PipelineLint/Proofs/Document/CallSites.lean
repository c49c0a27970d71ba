import PipelineLint.Proofs.Document.Assigned
import PipelineLint.Proofs.Document.LocalOrb
import PipelineLint.Proofs.Model.Inside

/-! # Where calls are written

Three kinds of calls give parameters: steps that invoke commands, jobs of workflows, and executors of jobs. Every call
of a document that is read from a tree was read at a place there, and has an entry for each parameter that is assigned
at that place: `entitiesRead_of_ofTreeWith`.
-/

namespace PipelineLint

open Step

namespace NameMap

variable {α : Type} {m : NameMap α} {name : String} {a b : α}

theorem mem_values_insert (h : b ∈ (m.insert name a).values) : b = a ∨ b ∈ m.values := by
  obtain ⟨entries⟩ := m
  simp only [values, insert] at h ⊢
  induction entries with
  | nil => exact .inl (by simpa [setIn] using h)
  | cons entry entries ih =>
    rw [setIn] at h
    split at h
    · exact (List.mem_cons.mp h).imp_right (List.mem_cons_of_mem _)
    · rcases List.mem_cons.mp h with rfl | h
      · exact .inr List.mem_cons_self
      · exact (ih h).imp_right (List.mem_cons_of_mem _)

theorem mem_values_modify {f : α → α} (h : b ∈ (m.modify name f).values) : ∃ a ∈ m.values, b = a ∨ b = f a := by
  simp only [values, modify, List.map_map, List.mem_map, Function.comp_apply] at h ⊢
  obtain ⟨entry, hentry, rfl⟩ := h
  refine ⟨entry.2, ⟨entry, hentry, rfl⟩, ?_⟩
  split <;> simp

end NameMap

namespace Read

open Yaml Yaml.View Reads

inductive CallKind where
  /-- A step invokes a command. -/
  | step
  /-- A workflow uses a job. -/
  | job
  /-- A job names its executor. -/
  | executor
  deriving DecidableEq, Repr

/-- The keys that have a meaning of their own in a call, so that they assign no parameter. -/
def CallKind.reserved : CallKind → List String
  | .step => [""]
  | .job => ["", "type", "requires", "name", "context", "filters", "branches", "tags", "matrix", "pre-steps", "post-steps",
      "max_auto_reruns", "serial-group"]
  | .executor => ["name"]

variable (v : View)

def pairsOf (value : Node) : List Pair := ((v.mapping? value).map v.pairs).getD []

/-- The place of the name in an item that is a name or has a name as its first key, and what is given under that key. -/
def itemSite (given : Node → List Pair) (i : Item) : Range × List Pair :=
  match i.value with
  | none => (i.markerRange, [])
  | some value => match v.mapping? value with
    | none => (value.range, [])
    | some mapping => match (v.pairs mapping).head? with
      | none => ({}, [])
      | some p => (p.keyRange, (p.value.map given).getD [])

/-- The place of the executor of a job, and the pairs of its mapping. -/
def executorSite (p : Pair) : Range × List Pair :=
  match p.value with
  | none =>
    let start : Position := ⟨p.range.start.line, p.range.start.column + "executor:".length⟩
    (Range.toLineEnd ⟨start, start⟩, [])
  | some value => (p.range, pairsOf v value)

/-- Places below a node where calls of a kind can be written, with the pairs that stand there. -/
inductive WrittenAt (top : Node) : CallKind → Range × List Pair → Prop where
  | step {i : Item} (below : v.ItemBelow top i) : WrittenAt top .step (itemSite v (pairsOf v) i)
  | job {i : Item} (below : v.ItemBelow top i) : WrittenAt top .job (itemSite v v.pairs i)
  | executor {p : Pair} (below : v.PairBelow top p) (key : v.keyText p = "executor") :
      WrittenAt top .executor (executorSite v p)

/-- A call at a place was read where it is written, and each pair there that assigns a parameter has an entry. -/
def ReadAt (top : Node) (kind : CallKind) (range : Range) (given : Assignments) : Prop :=
  ∃ pairs, WrittenAt v top kind (range, pairs) ∧ ∀ p ∈ pairs, v.keyText p ∉ kind.reserved → HasEntry v given p

/-- All invocations among steps were read where they are written. -/
def StepsRead (top : Node) (sts : List Step) : Prop :=
  ∀ call : Invocation, Among (.named call) sts → ReadAt v top .step call.range call.parameters

/-- All invocations inside a value were read where they are written. -/
def ValueRead (top : Node) (value : Value) : Prop :=
  ∀ call : Invocation, InsideValue (.named call) value → ReadAt v top .step call.range call.parameters

/-- All invocations inside values were read where they are written. -/
def ValuesRead (top : Node) (as : Assignments) : Prop := ∀ a ∈ as, ValueRead v top a.value

variable {v} {top : Node}

theorem stepsRead_nil : StepsRead v top [] := fun _ ⟨_, hst, _⟩ => nomatch hst

theorem stepsRead_flatten {parts : List (List Step)} (h : ∀ sts ∈ parts, StepsRead v top sts) :
    StepsRead v top parts.flatten := by
  rintro call ⟨st, hst, hinside⟩
  obtain ⟨sts, hsts, hst⟩ := List.mem_flatten.mp hst
  exact h sts hsts call ⟨st, hst, hinside⟩

theorem valuesRead_nil : ValuesRead v top [] := List.forall_mem_nil _

/-- A step that invokes nothing. -/
theorem stepsRead_singleton {st : Step} (h : ∀ call, st ≠ .named call) : StepsRead v top [st] := by
  rintro call ⟨st', hst', hinside⟩
  obtain rfl := List.mem_singleton.mp hst'
  exact absurd ((inside_iff_eq h).mp hinside).symm (h call)

private theorem stepsRead_named {call : Invocation} (h : ReadAt v top .step call.range call.parameters)
    (hvalues : ValuesRead v top call.parameters) : StepsRead v top [.named call] := by
  rintro inner ⟨st, hst, hinside⟩
  obtain rfl := List.mem_singleton.mp hst
  obtain heq | ⟨a, ha, hinside⟩ := inside_named_iff.mp hinside
  · exact (Step.named.inj heq) ▸ h
  · exact hvalues a ha inner hinside

private theorem valueRead_steps {sts : List Step} (h : StepsRead v top sts) : ValueRead v top (.steps sts) := by
  rintro call (⟨given, inside⟩)
  exact h call ⟨_, given, inside⟩

private theorem valueRead_list {items : List Assignment} (h : ValuesRead v top items) :
    ValueRead v top (.list items) := by
  rintro call (_ | ⟨item, inside⟩)
  exact h _ item call inside

private theorem valueRead_map {entries : List Assignment} (h : ValuesRead v top entries) :
    ValueRead v top (.map entries) := by
  rintro call (_ | _ | ⟨entry, inside⟩)
  exact h _ entry call inside

theorem scalarValue?_cases {n : Node} {value : Value} (h : scalarValue? v n = some value) :
    value = .text (v.text n) ∨ (∃ truth, value = .truth truth) ∨
      ∃ number, value = .number number ∧ Text.signed? 64 (v.text n).toList = some number := by
  unfold scalarValue? at h
  dsimp only at h
  split at h
  · split at h
    · exact .inr (.inl ⟨_, (Option.some.inj h).symm⟩)
    · obtain ⟨number, hnumber, rfl⟩ := Option.map_eq_some_iff.mp h
      exact .inr (.inr ⟨number, rfl, hnumber⟩)
    · split at h
      · obtain ⟨truth, -, rfl⟩ := Option.map_eq_some_iff.mp h
        exact .inr (.inl ⟨truth, rfl⟩)
      · exact .inl (Option.some.inj h).symm
  · exact .inl (Option.some.inj h).symm

theorem valueRead_scalarValue? {n : Node} {value : Value} (h : scalarValue? v n = some value) :
    ValueRead v top value := by
  obtain rfl | ⟨_, rfl⟩ | ⟨_, rfl, -⟩ := scalarValue?_cases h <;> rintro call ⟨⟩

private theorem valueRead_withAlias {raw : Node} {value : Value} (h : ValueRead v top value) :
    ValueRead v top (withAlias v raw value) := by
  unfold withAlias
  split
  · exact h
  · exact h
  · rintro call ⟨⟩
  · exact h

theorem valuesRead_insert {as : Assignments} {a : Assignment} (has : ValuesRead v top as)
    (ha : ValueRead v top a.value) :
    ValuesRead v top (as.insert a) := by
  induction as with
  | nil => exact fun b hb => (List.mem_singleton.mp hb) ▸ ha
  | cons b as ih =>
    obtain ⟨hb, has⟩ := List.forall_mem_cons.mp has
    rw [Assignments.insert]
    split
    · exact List.forall_mem_cons.mpr ⟨ha, has⟩
    · exact List.forall_mem_cons.mpr ⟨hb, ih has⟩

private theorem valuesRead_insertAll {read : List (Option Assignment)}
    (h : ∀ found ∈ read, ∀ a ∈ found, ValueRead v top a.value)
    {as : Assignments} (has : ValuesRead v top as) : ValuesRead v top (as.insertAll read) := by
  induction read generalizing as with
  | nil => exact has
  | cons found read ih =>
    obtain ⟨hfound, hread⟩ := List.forall_mem_cons.mp h
    cases found with
    | none => exact ih hread has
    | some a => exact ih hread (valuesRead_insert has (hfound a rfl))

/-- With some fuel, whatever is read below a node has only invocations that were read where they are written. -/
structure CallsRead (v : View) (top : Node) (fuel : Nat) : Prop where
  steps : ∀ {n}, v.Reaches top n → Always (StepsRead v top) (steps v fuel n)
  step : ∀ {i}, v.ItemBelow top i → Always (StepsRead v top) (step v fuel i)
  conditional : ∀ {n}, v.Reaches top n → Always (StepsRead v top) (conditional v fuel n)
  invocation : ∀ {n} name p, v.Reaches top n → Always (fun call => call.range = p.keyRange ∧
    (∀ q ∈ pairsOf v n, v.keyText q ≠ "" → HasEntry v call.parameters q) ∧ ValuesRead v top call.parameters)
    (invocation v fuel name p n)
  assignments : ∀ {ps}, (∀ p ∈ ps, v.PairBelow top p) → Always (ValuesRead v top) (assignments v fuel ps)
  assignment : ∀ {p}, v.PairBelow top p → Always (fun found => ∀ a ∈ found, ValueRead v top a.value) (assignment v fuel p)
  listItems : ∀ {n} name, v.Reaches top n → Always (ValuesRead v top) (listItems v fuel name n)

namespace CallsRead

variable {fuel : Nat} {n : Node} {i : Item} {p : Pair}

private theorem zero : CallsRead v top 0 where
  steps _ := always_endless
  step _ := always_endless
  conditional _ := always_endless
  invocation _ _ _ := always_endless
  assignments _ := always_endless
  assignment _ := always_endless
  listItems _ _ := always_endless

variable (h : CallsRead v top fuel)
include h

theorem steps_succ (hn : v.Reaches top n) : Always (StepsRead v top) (Read.steps v (fuel + 1) n) := by
  rw [Read.steps]
  refine (always_each (P := fun _ => StepsRead v top) fun i hi => ?_).bind fun parts hparts => always_pure ?_
  · exact h.step ((below_of_mem_items hi).above hn)
  · exact stepsRead_flatten fun sts hsts => (hparts.2 sts hsts).elim fun _ hread => hread.2

theorem conditional_succ (hn : v.Reaches top n) : Always (StepsRead v top) (Read.conditional v (fuel + 1) n) := by
  rw [Read.conditional]
  refine (always_each (P := fun _ => StepsRead v top) fun p hp => ?_).bind fun parts hparts => always_pure ?_
  · cases hvalue : p.value with
    | none => exact always_pure stepsRead_nil
    | some value =>
      dsimp only
      split
      · exact h.steps (((below_of_mem_pairs hp).above hn).value hvalue).to_reflTransGen
      · exact always_pure stepsRead_nil
  · exact stepsRead_flatten fun sts hsts => (hparts.2 sts hsts).elim fun _ hread => hread.2

theorem assignments_succ {ps : List Pair} (hps : ∀ p ∈ ps, v.PairBelow top p) :
    Always (ValuesRead v top) (Read.assignments v (fuel + 1) ps) := by
  rw [Read.assignments]
  refine (always_each (P := fun _ found => ∀ a ∈ found, ValueRead v top a.value) fun p hp => h.assignment (hps p hp)).bind
    fun read hread => always_pure ?_
  exact valuesRead_insertAll (fun found hfound => (hread.2 found hfound).elim fun _ hread => hread.2) (List.forall_mem_nil _)

theorem listItems_succ (name : String) (hn : v.Reaches top n) :
    Always (ValuesRead v top) (Read.listItems v (fuel + 1) name n) := by
  rw [Read.listItems]
  refine (always_each (P := fun _ found => ∀ a ∈ found, ValueRead v top a.value) fun i hi => ?_).bind
    fun read hread => always_pure ?_
  · split
    · refine (h.step ((below_of_mem_items hi).above hn)).bind fun inner hinner => always_pure ?_
      rintro a ⟨⟩
      exact valueRead_steps hinner
    · refine always_pure fun a ha => ?_
      obtain ⟨value, hvalue, rfl⟩ := Option.map_eq_some_iff.mp ha
      obtain ⟨scalar, -, hvalue⟩ := Option.bind_eq_some_iff.mp hvalue
      exact valueRead_scalarValue? hvalue
  · intro a ha
    obtain ⟨found, hfound, hsome⟩ := List.mem_filterMap.mp ha
    obtain ⟨-, -, hread⟩ := hread.2 found hfound
    exact hread a hsome

theorem assignment_succ (hp : v.PairBelow top p) :
    Always (fun found => ∀ a ∈ found, ValueRead v top a.value) (Read.assignment v (fuel + 1) p) := by
  have hnamed : ∀ {name : String} {raw : Node} {found : Option Value}, (∀ value ∈ found, ValueRead v top value) →
      Always (fun found => ∀ a ∈ found, ValueRead v top a.value)
        (pure (found.map fun value => Assignment.mk name (withAlias v raw value) raw.range p.range)) := by
    intro name raw found hfound
    refine always_pure fun (a : Assignment) ha => ?_
    obtain ⟨value, hvalue, rfl⟩ := Option.map_eq_some_iff.mp ha
    exact valueRead_withAlias (hfound value hvalue)
  unfold Read.assignment
  cases p.key with
  | none => exact always_pure fun _ ha => by cases ha
  | some key =>
    cases hraw : p.rawValue with
    | none => exact always_bind fun _ => always_pure fun _ ha => by cases ha
    | some raw =>
      have hbelow := (hp.rawValue hraw).to_reflTransGen
      dsimp only
      cases hcontent : v.content? raw with
      | none => exact (always_pure (P := fun found => found = none) rfl).bind fun found hfound => hnamed (by simp [hfound])
      | some content =>
        dsimp only
        split
        · refine (h.listItems _ hbelow).bind fun items hitems => ?_
          refine (always_pure (P := fun found => found = some (.list items)) rfl).bind fun found hfound => hnamed ?_
          rintro value hvalue
          obtain rfl := Option.some.inj (hfound.symm.trans hvalue)
          exact valueRead_list hitems
        split
        · refine (h.assignments fun q hq => ?_).bind fun entries hentries => ?_
          · exact (below_of_mem_pairs (List.mem_filter.mp hq).1).above (hbelow.trans (reaches_content? hcontent))
          refine (always_pure (P := fun found => found = some (.map entries)) rfl).bind fun found hfound => hnamed ?_
          rintro value hvalue
          obtain rfl := Option.some.inj (hfound.symm.trans hvalue)
          exact valueRead_map hentries
        split
        · refine (always_pure (P := fun found => ∀ value ∈ found, ValueRead v top value) ?_).bind fun found => hnamed
          exact fun value hvalue => valueRead_scalarValue? hvalue
        · exact (always_pure (P := fun found => found = none) rfl).bind fun found hfound => hnamed (by simp [hfound])

theorem invocation_succ (name : String) (p : Pair) (hn : v.Reaches top n) :
    Always (fun call => call.range = p.keyRange ∧
      (∀ q ∈ pairsOf v n, v.keyText q ≠ "" → HasEntry v call.parameters q) ∧ ValuesRead v top call.parameters)
    (Read.invocation v (fuel + 1) name p n) := by
  rw [Read.invocation]
  cases hmapping : v.mapping? n with
  | none => exact always_pure ⟨rfl, by simp [pairsOf, hmapping], List.forall_mem_nil _⟩
  | some mapping =>
    have hbelow : ∀ q ∈ (v.pairs mapping).filter fun q => !(v.keyText q).isEmpty, v.PairBelow top q := fun q hq =>
      (below_of_mem_pairs (List.mem_filter.mp hq).1).above (hn.trans (reaches_mapping? hmapping))
    refine ((h.assignments hbelow).and (always_assignments fuel _)).bind fun given hgiven => always_pure ⟨rfl, ?_, hgiven.1⟩
    intro q hq hname
    refine hgiven.2 q (List.mem_filter.mpr ⟨by simpa [pairsOf, hmapping] using hq, ?_⟩)
    simpa using hname

theorem step_succ (hi : v.ItemBelow top i) : Always (StepsRead v top) (Read.step v (fuel + 1) i) := by
  have hbare : ∀ name range, (range, []) = itemSite v (pairsOf v) i → StepsRead v top [.named ⟨name, range, [], {}⟩] :=
    fun name range hsite => stepsRead_named ⟨[], hsite ▸ .step hi, List.forall_mem_nil _⟩ valuesRead_nil
  rw [Read.step]
  cases hvalue : i.value with
  | none => exact always_pure (hbare _ _ (by simp [itemSite, hvalue]))
  | some value =>
    dsimp only
    cases hmapping : v.mapping? value with
    | none =>
      dsimp only
      split
      · exact always_pure (hbare _ _ (by simp [itemSite, hvalue, hmapping]))
      · exact always_pure (stepsRead_singleton fun _ hcall => by cases hcall)
    | some mapping =>
      dsimp only
      cases hfirst : (v.pairs mapping).head? with
      | none => exact always_pure stepsRead_nil
      | some p =>
        dsimp only
        cases hinner : p.value with
        | none => exact always_pure stepsRead_nil
        | some inner =>
          have hbelow := ((below_of_mem_pairs (List.mem_of_head? hfirst)).above
            (((hi.value hvalue).to_reflTransGen).trans (reaches_mapping? hmapping))).value hinner
          dsimp only
          split
          · exact always_pure (stepsRead_singleton fun _ hcall => by cases hcall)
          split
          · exact always_pure (stepsRead_singleton fun _ hcall => by cases hcall)
          split
          · exact h.conditional hbelow.to_reflTransGen
          split
          · next s hbuiltIn =>
            refine always_pure (stepsRead_singleton fun call hcall => ?_)
            subst hcall
            unfold builtIn? at hbuiltIn
            split at hbuiltIn <;> simp at hbuiltIn
          · refine (h.invocation _ _ hbelow.to_reflTransGen).bind fun call hcall => always_pure ?_
            obtain ⟨hrange, hentries, hvalues⟩ := hcall
            refine stepsRead_named ⟨pairsOf v inner, ?_, fun q hq hname => ?_⟩ hvalues
            · have hsite : (call.range, pairsOf v inner) = itemSite v (pairsOf v) i := by
                simp [itemSite, hvalue, hmapping, hfirst, hrange, hinner]
              exact hsite ▸ .step hi
            · exact hentries q hq (by simpa [CallKind.reserved] using hname)

private theorem succ : CallsRead v top (fuel + 1) where
  steps := h.steps_succ
  step := h.step_succ
  conditional := h.conditional_succ
  invocation := h.invocation_succ
  assignments := h.assignments_succ
  assignment := h.assignment_succ
  listItems := h.listItems_succ

end CallsRead

/-- Whatever is read below a node has only invocations that were read where they are written. -/
theorem callsRead (v : View) (top : Node) (fuel : Nat) : CallsRead v top fuel := by
  induction fuel with
  | zero => exact .zero
  | succ fuel ih => exact ih.succ

structure JobRead (v : View) (top : Node) (j : Job) : Prop where
  steps : StepsRead v top j.steps
  executor : ∀ use ∈ j.executor, ReadAt v top .executor use.range use.parameters ∧ ValuesRead v top use.parameters

/-- A job of a workflow was read where it is written, with all that is given to it. -/
structure JobUseRead (v : View) (top : Node) (use : JobUse) : Prop where
  self : ReadAt v top .job use.jobNameRange use.parameters
  parameters : ValuesRead v top use.parameters
  matrix : ValuesRead v top use.matrix
  preSteps : StepsRead v top use.preSteps
  postSteps : StepsRead v top use.postSteps

structure EntitiesRead (v : View) (top : Node) (d : Document) : Prop where
  commands : ∀ c ∈ d.commands.values, StepsRead v top c.steps
  jobs : ∀ j ∈ d.jobs.values, JobRead v top j
  uses : ∀ w ∈ d.workflows.values, ∀ use ∈ w.jobs, JobUseRead v top use

variable {n : Node} {p : Pair} {i : Item}

theorem always_readSteps (hn : v.Reaches top n) : Always (StepsRead v top) (readSteps v n) :=
  (callsRead v top _).steps hn

theorem always_insertFirst {α : Type} {P : α → Prop} {m : NameMap α} {name message : String} {entity : α}
    {nameRange : α → Range} (hm : ∀ a ∈ m.values, P a) (hentity : P entity) :
    Always (fun m => ∀ a ∈ m.values, P a) (insertFirst m name entity nameRange message) := by
  unfold insertFirst
  split
  · exact always_pure fun a ha => (NameMap.mem_values_insert ha).elim (fun heq => heq ▸ hentity) (hm a)
  · exact always_bind fun _ => always_bind fun _ => always_pure hm

theorem values_empty {α : Type} : (∅ : NameMap α).values = [] := rfl

private theorem always_steps_commandField {c : Command} (hp : v.PairBelow top p) (hc : StepsRead v top c.steps) :
    Always (fun c => StepsRead v top c.steps) (commandField v c p) := by
  unfold commandField
  split
  · exact always_pure hc
  · next value hvalue =>
    split
    · exact always_pure hc
    · exact (always_readSteps (hp.value hvalue).to_reflTransGen).bind fun sts hsts => always_pure hsts
    · exact always_bind fun _ => always_pure hc
    · exact always_pure hc

private theorem always_steps_command (hp : v.PairBelow top p) :
    Always (fun found => ∀ c ∈ found, StepsRead v top c.steps) (command v p) := by
  unfold command
  split
  · next key mapping _ hbody =>
    obtain ⟨value, hvalue, hmapping⟩ := Option.bind_eq_some_iff.mp hbody
    have hbelow := ((hp.value hvalue).to_reflTransGen).trans (reaches_mapping? hmapping)
    refine (always_through (I := fun c => StepsRead v top c.steps) (fun c q hq hc => ?_) ?_).bind fun c hc => ?_
    · exact always_steps_commandField ((below_of_mem_pairs hq).above hbelow) hc
    · exact stepsRead_nil
    · exact always_pure (by rintro _ ⟨⟩; exact hc)
  · exact always_pure nofun

private theorem always_steps_commands (hn : v.Reaches top n) :
    Always (fun m => ∀ c ∈ m.values, StepsRead v top c.steps) (commands v n) := by
  refine always_through (fun m p hp hm => ?_) (by simp [values_empty])
  refine (always_steps_command ((below_of_mem_pairs hp).above hn)).bind fun found hfound => ?_
  cases found with
  | none => exact always_pure hm
  | some c =>
    dsimp only
    split
    · exact always_pure hm
    · exact always_insertFirst hm (hfound c rfl)

private theorem always_readAssignment (hp : v.PairBelow top p) :
    Always (fun found => ((found.isSome = true ↔ Assigns v p) ∧ ∀ a ∈ found, a.name = v.keyText p) ∧
      ∀ a ∈ found, ValueRead v top a.value) (readAssignment v p) :=
  (always_assignment _ p).and ((callsRead v top _).assignment hp)

/-- Putting what is read of a pair into the values of a call keeps them read, leaves an entry if the pair assigns a
parameter, and keeps all entries. -/
theorem always_insertRead {σ : Type} {s : σ} {g : σ → Assignments} {put : Assignment → σ} {I : σ → Prop}
    {reserved : List String} (hp : v.PairBelow top p) (hgiven : ∀ a, g (put a) = (g s).insert a) (hs : I s)
    (hput : ∀ a, I (put a)) (hvalues : ValuesRead v top (g s)) :
    Always (fun s' => (I s' ∧ ValuesRead v top (g s')) ∧ (v.keyText p ∉ reserved → HasEntry v (g s') p) ∧
        ∀ q : Pair, (v.keyText q ∉ reserved → HasEntry v (g s) q) → v.keyText q ∉ reserved →
          HasEntry v (g s') q)
      (readAssignment v p >>= fun found => match found with
        | some a => pure (put a)
        | none => pure s) := by
  refine (always_readAssignment hp).bind fun found ⟨⟨hassigns, hname⟩, hvalue⟩ => ?_
  cases found with
  | none =>
    refine always_pure ⟨⟨hs, hvalues⟩, fun _ hp => ?_, fun _ hq => hq⟩
    cases hassigns.mpr hp
  | some a =>
    refine always_pure ⟨⟨hput a, ?_⟩, fun _ _ => ?_, fun q hq hreserved hassigned => ?_⟩
    · exact hgiven a ▸ valuesRead_insert hvalues (hvalue a rfl)
    · rw [hgiven, ← hname a rfl]
      exact Assignments.contains_insert_self _ _
    · rw [hgiven]
      exact Assignments.contains_insert_of_contains (hq hreserved hassigned) a

private theorem always_executorUse (hp : v.PairBelow top p) (hkey : v.keyText p = "executor") :
    Always (fun use => ReadAt v top .executor use.range use.parameters ∧ ValuesRead v top use.parameters)
      (executorUse v p) := by
  have hsite := WrittenAt.executor hp hkey
  unfold executorUse
  unfold executorSite at hsite
  cases hvalue : p.value with
  | none =>
    rw [hvalue] at hsite
    exact always_pure ⟨⟨[], hsite, nofun⟩, nofun⟩
  | some value =>
    rw [hvalue] at hsite
    dsimp only at hsite ⊢
    cases hmapping : v.mapping? value with
    | none =>
      have hnone : pairsOf v value = [] := by simp [pairsOf, hmapping]
      exact always_pure ⟨⟨[], hnone ▸ hsite, nofun⟩, nofun⟩
    | some mapping =>
      have hpairs : pairsOf v value = v.pairs mapping := by simp [pairsOf, hmapping]
      rw [hpairs] at hsite
      have hbelow : ∀ q ∈ v.pairs mapping, v.PairBelow top q := fun q hq =>
        (below_of_mem_pairs hq).above ((hp.value hvalue).to_reflTransGen.trans (reaches_mapping? hmapping))
      refine (always_through_marks (I := fun use => use.range = p.range ∧ ValuesRead v top use.parameters)
        (m := fun use q => v.keyText q ∉ CallKind.executor.reserved → HasEntry v use.parameters q)
        (fun use ⟨hrange, hvalues⟩ q hq => ?_) ⟨rfl, valuesRead_nil⟩).mono
        fun use ⟨⟨hrange, hvalues⟩, hmarks⟩ => ⟨⟨_, hrange ▸ hsite, hmarks⟩, hvalues⟩
      split
      · next hname =>
        exact always_pure ⟨⟨hrange, hvalues⟩, fun hreserved => absurd (List.mem_singleton.mpr hname) hreserved, fun _ => id⟩
      · exact always_insertRead (g := ExecutorUse.parameters) (I := fun use => use.range = p.range) (hbelow q hq)
          (fun _ => rfl) hrange (fun _ => hrange) hvalues

private theorem always_jobRead {j : Job} (hp : v.PairBelow top p) (hj : JobRead v top j) :
    Always (JobRead v top) (jobField v j p) := by
  unfold jobField
  dsimp only
  split
  · next hkey =>
    refine (always_executorUse hp hkey).bind fun use huse => always_pure ⟨hj.steps, ?_⟩
    rintro _ ⟨⟩
    exact huse
  · cases hvalue : p.value with
    | none => exact always_pure hj
    | some value =>
      have hkept : ∀ {j' : Job}, j'.steps = j.steps → j'.executor = j.executor → JobRead v top j' :=
        fun hsteps hexecutor => ⟨hsteps ▸ hj.steps, hexecutor ▸ hj.executor⟩
      dsimp only
      split
      case h_5 => split <;> exact always_pure (hkept rfl rfl)
      case h_7 =>
        exact (always_readSteps (hp.value hvalue).to_reflTransGen).bind fun sts hsts => always_pure ⟨hsts, hj.executor⟩
      case h_8 => exact always_bind fun _ => always_pure (hkept rfl rfl)
      all_goals exact always_pure (hkept rfl rfl)

private theorem always_job_read (hp : v.PairBelow top p) :
    Always (fun found => ∀ j ∈ found, JobRead v top j) (job v p) := by
  unfold job
  split
  · next key mapping _ hbody =>
    obtain ⟨value, hvalue, hmapping⟩ := Option.bind_eq_some_iff.mp hbody
    have hbelow := ((hp.value hvalue).to_reflTransGen).trans (reaches_mapping? hmapping)
    dsimp only
    refine (always_through (I := JobRead v top) (fun j q hq hj => ?_) ?_).bind fun j hj => ?_
    · exact always_jobRead ((below_of_mem_pairs hq).above hbelow) hj
    · exact ⟨stepsRead_nil, nofun⟩
    · split
      · refine always_pure ?_
        rintro _ ⟨⟩
        exact ⟨hj.steps, hj.executor⟩
      · exact always_pure (by rintro _ ⟨⟩; exact hj)
  · exact always_pure (by simp)

private theorem always_jobs_read (hn : v.Reaches top n) :
    Always (fun m => ∀ j ∈ m.values, JobRead v top j) (jobs v n) := by
  refine always_through (fun m p hp hm => ?_) (by simp [values_empty])
  refine (always_job_read ((below_of_mem_pairs hp).above hn)).bind fun found hfound => ?_
  cases found with
  | none => exact always_pure hm
  | some j => exact always_insertFirst hm (hfound j rfl)

/-- All that is given to a job of a workflow was read where it is written. -/
structure GivenRead (v : View) (top : Node) (range : Range) (use : JobUse) : Prop where
  range_eq : use.jobNameRange = range
  matrix : ValuesRead v top use.matrix
  preSteps : StepsRead v top use.preSteps
  postSteps : StepsRead v top use.postSteps

private theorem always_jobUseField {use : JobUse} {range : Range} (hp : v.PairBelow top p)
    (huse : GivenRead v top range use)
    (hvalues : ValuesRead v top use.parameters) :
    Always (fun use' => (GivenRead v top range use' ∧ ValuesRead v top use'.parameters) ∧
        (v.keyText p ∉ CallKind.job.reserved → HasEntry v use'.parameters p) ∧
        ∀ q : Pair, (v.keyText q ∉ CallKind.job.reserved → HasEntry v use.parameters q) →
          v.keyText q ∉ CallKind.job.reserved → HasEntry v use'.parameters q)
      (jobUseField v use p) := by
  -- A key with a meaning of its own changes none of the values.
  have hother : ∀ {use' : JobUse}, GivenRead v top range use' → use'.parameters = use.parameters →
      v.keyText p ∈ CallKind.job.reserved →
      (GivenRead v top range use' ∧ ValuesRead v top use'.parameters) ∧
        (v.keyText p ∉ CallKind.job.reserved → HasEntry v use'.parameters p) ∧
        ∀ q : Pair, (v.keyText q ∉ CallKind.job.reserved → HasEntry v use.parameters q) →
          v.keyText q ∉ CallKind.job.reserved → HasEntry v use'.parameters q := by
    intro use' huse' heq hreserved
    rw [heq]
    exact ⟨⟨huse', hvalues⟩, fun hnot => absurd hreserved hnot, fun _ => id⟩
  have hkept : ∀ {use' : JobUse}, use'.jobNameRange = use.jobNameRange → use'.matrix = use.matrix →
      use'.preSteps = use.preSteps → use'.postSteps = use.postSteps → GivenRead v top range use' :=
    fun hrange hmatrix hpre hpost =>
      ⟨hrange ▸ huse.range_eq, hmatrix ▸ huse.matrix, hpre ▸ huse.preSteps, hpost ▸ huse.postSteps⟩
  unfold jobUseField
  cases hvalue : p.value with
  | none =>
    refine always_pure ⟨⟨huse, hvalues⟩, fun _ ⟨_, raw, _, hraw, _⟩ => ?_, fun _ => id⟩
    simp [value_of_pair? hp.eq, hraw] at hvalue
  | some value =>
    have hbelow := (hp.value hvalue).to_reflTransGen
    dsimp only
    split
    case h_9 hkey =>
      have hreserved : v.keyText p ∈ CallKind.job.reserved := by simp [hkey, CallKind.reserved]
      split
      · exact always_pure (hother (hkept rfl rfl rfl rfl) rfl hreserved)
      · next inner hinner =>
        have hinner' : v.Reaches top inner := by
          obtain ⟨q, hq, hinner⟩ := Option.bind_eq_some_iff.mp hinner
          exact hbelow.trans ((below_of_mem_pairs (List.mem_of_find?_eq_some hq)).value hinner).to_reflTransGen
        have hmatrix : Always (ValuesRead v top) (readAssignments v inner) :=
          (callsRead v top _).assignments fun q hq => (below_of_mem_pairs hq).above hinner'
        refine hmatrix.bind fun matrix hmatrix => always_pure (hother ?_ rfl hreserved)
        exact ⟨huse.range_eq, hmatrix, huse.preSteps, huse.postSteps⟩
    case h_10 hkey =>
      refine (always_readSteps hbelow).bind fun sts hsts => always_pure (hother ?_ rfl ?_)
      · exact ⟨huse.range_eq, huse.matrix, hsts, huse.postSteps⟩
      · simp [hkey, CallKind.reserved]
    case h_11 hkey =>
      refine (always_readSteps hbelow).bind fun sts hsts => always_pure (hother ?_ rfl ?_)
      · exact ⟨huse.range_eq, huse.matrix, huse.preSteps, hsts⟩
      · simp [hkey, CallKind.reserved]
    case h_14 =>
      exact always_insertRead (g := JobUse.parameters) (I := GivenRead v top range) hp (fun _ => rfl) huse
        (fun _ => hkept rfl rfl rfl rfl) hvalues
    all_goals
      next hkey => exact always_pure (hother (hkept rfl rfl rfl rfl) rfl (by simp [hkey, CallKind.reserved]))

private theorem always_jobUse (hi : v.ItemBelow top i) : Always (JobUseRead v top) (jobUse v i) := by
  have hbare : ∀ {use : JobUse}, (use.jobNameRange, []) = itemSite v v.pairs i → use.parameters = [] → use.matrix = [] →
      use.preSteps = [] → use.postSteps = [] → JobUseRead v top use := by
    intro use hsite hparameters hmatrix hpre hpost
    refine ⟨⟨[], hsite ▸ .job hi, nofun⟩, ?_, ?_, ?_, ?_⟩
    · exact hparameters ▸ valuesRead_nil
    · exact hmatrix ▸ valuesRead_nil
    · exact hpre ▸ stepsRead_nil
    · exact hpost ▸ stepsRead_nil
  unfold jobUse
  dsimp only
  cases hvalue : i.value with
  | none => exact always_pure (hbare (by simp [itemSite, hvalue]) rfl rfl rfl rfl)
  | some value =>
    dsimp only
    cases hmapping : v.mapping? value with
    | none => exact always_pure (hbare (by simp [itemSite, hvalue, hmapping]) rfl rfl rfl rfl)
    | some mapping =>
      dsimp only
      cases hfirst : (v.pairs mapping).head? with
      | none => exact always_pure (hbare (by simp [itemSite, hvalue, hmapping, hfirst]) rfl rfl rfl rfl)
      | some first =>
        dsimp only
        cases hbody : first.value with
        | none => exact always_pure (hbare (by simp [itemSite, hvalue, hmapping, hfirst, hbody]) rfl rfl rfl rfl)
        | some body =>
          have hbelow : v.Reaches top body :=
            (((below_of_mem_pairs (List.mem_of_head? hfirst)).above
              ((hi.value hvalue).to_reflTransGen.trans (reaches_mapping? hmapping))).value hbody).to_reflTransGen
          dsimp only
          refine (always_through_marks
            (I := fun use => GivenRead v top first.keyRange use ∧ ValuesRead v top use.parameters)
            (m := fun use q => v.keyText q ∉ CallKind.job.reserved → HasEntry v use.parameters q)
            (fun use ⟨hgiven, hvalues⟩ q hq => always_jobUseField ((below_of_mem_pairs hq).above hbelow) hgiven hvalues)
            ⟨⟨rfl, valuesRead_nil, stepsRead_nil, stepsRead_nil⟩, valuesRead_nil⟩).mono ?_
          rintro use ⟨⟨hgiven, hvalues⟩, hmarks⟩
          have hsite : (use.jobNameRange, v.pairs body) = itemSite v v.pairs i := by
            simp [itemSite, hvalue, hmapping, hfirst, hbody, hgiven.range_eq]
          exact ⟨⟨v.pairs body, hsite ▸ .job hi, hmarks⟩, hvalues, hgiven.matrix, hgiven.preSteps, hgiven.postSteps⟩

private theorem always_workflowField_read {w : Workflow} (hp : v.PairBelow top p)
    (hw : ∀ use ∈ w.jobs, JobUseRead v top use) :
    Always (fun w => ∀ use ∈ w.jobs, JobUseRead v top use) (workflowField v w p) := by
  unfold workflowField
  split
  · exact always_pure hw
  · next value hvalue =>
    split
    · refine (always_each (P := fun _ => JobUseRead v top) fun i hi => ?_).bind fun uses huses => always_pure ?_
      · exact always_jobUse ((below_of_mem_items hi).above (hp.value hvalue).to_reflTransGen)
      · exact List.forall_mem_append.mpr ⟨hw, fun use huse => (huses.2 use huse).elim fun _ hread => hread.2⟩
    · exact always_pure hw
    · exact always_pure hw

private theorem always_workflow_read (hp : v.PairBelow top p) :
    Always (fun found => ∀ w ∈ found, ∀ use ∈ w.jobs, JobUseRead v top use) (workflow v p) := by
  unfold workflow
  split
  · next key value _ hvalue =>
    have hbelow := (hp.value hvalue).to_reflTransGen
    refine (always_through (I := fun w => ∀ use ∈ w.jobs, JobUseRead v top use) (fun w q hq hw => ?_) ?_).bind fun w hw => ?_
    · exact always_workflowField_read ((below_of_mem_pairs hq).above hbelow) hw
    · exact List.forall_mem_nil _
    · exact always_pure (by rintro _ ⟨⟩; exact hw)
  · exact always_pure (by simp)

private theorem always_workflows_read (version : Float) (hn : v.Reaches top n) :
    Always (fun m => ∀ w ∈ m.values, ∀ use ∈ w.jobs, JobUseRead v top use) (workflows v version n) := by
  refine always_through (fun m p hp hm => ?_) (by simp [values_empty])
  split
  · split
    · exact always_bind fun _ => always_pure hm
    · exact always_pure hm
  · refine (always_workflow_read ((below_of_mem_pairs hp).above hn)).bind fun found hfound => ?_
    cases found with
    | none => exact always_pure hm
    | some w => exact always_insertFirst hm (hfound w rfl)

variable {nested : List Char → Except Endless Document} {d : Document}

/-- Contexts change no call. -/
theorem EntitiesRead.giveContexts (h : EntitiesRead v top d) : EntitiesRead v top (giveContexts d) := by
  refine giveContexts_induction (I := EntitiesRead v top) (fun name context h => ?_) (fun name context h => ?_) h
  · refine ⟨h.commands, fun j hj => ?_, h.uses⟩
    obtain ⟨j', hj', rfl | rfl⟩ := NameMap.mem_values_modify hj
    · exact h.jobs _ hj'
    · exact ⟨(h.jobs j' hj').steps, (h.jobs j' hj').executor⟩
  · refine ⟨fun c hc => ?_, h.jobs, h.uses⟩
    obtain ⟨c', hc', rfl | rfl⟩ := NameMap.mem_values_modify hc
    · exact h.commands _ hc'
    · exact h.commands c' hc'

private theorem always_readSection_read {name : String} (hvalue : ∀ value, p.value = some value → v.Reaches top value)
    (hd : EntitiesRead v top d) : Always (EntitiesRead v top) (readSection v nested d name p) := by
  have hkept : ∀ {d' : Document}, d'.commands = d.commands → d'.jobs = d.jobs → d'.workflows = d.workflows →
      EntitiesRead v top d' :=
    fun hcommands hjobs hworkflows => ⟨hcommands ▸ hd.commands, hjobs ▸ hd.jobs, hworkflows ▸ hd.uses⟩
  unfold readSection
  split
  case h_7 value hp =>
    exact (always_steps_commands (hvalue value hp)).bind fun commands hcommands => always_pure ⟨hcommands, hd.jobs, hd.uses⟩
  case h_9 value hp =>
    exact (always_jobs_read (hvalue value hp)).bind fun jobs hjobs => always_pure ⟨hd.commands, hjobs, hd.uses⟩
  case h_12 value hp =>
    exact (always_workflows_read _ (hvalue value hp)).bind fun workflows huses =>
      always_pure ⟨hd.commands, hd.jobs, huses⟩
  all_goals first
    | exact always_pure (hkept rfl rfl rfl)
    | exact always_bind fun _ => always_pure (hkept rfl rfl rfl)

/-- All calls of a document that is read from a tree are written there. -/
theorem entitiesRead_of_ofTreeWith {kind : DocumentKind} {tree : Tree} (h : ofTreeWith nested kind tree = .ok d) :
    EntitiesRead (.ofTree tree) tree.top d := by
  have hbare : EntitiesRead (.ofTree tree) tree.top { Document.ofTree kind tree with anchors := .ofTree tree } := by
    constructor <;> simp [Document.ofTree, values_empty]
  obtain ⟨read, findings, hread, rfl⟩ := exists_read_of_ofTreeWith h hbare fun _ _ p hp hd => by
    have hbelow := below_of_mem_pairs (List.mem_of_find?_eq_some hp)
    exact always_readSection_read (fun value hvalue => (hbelow.value hvalue).to_reflTransGen) hd
  have hgiven := hread.giveContexts
  cases kind <;> exact ⟨hgiven.commands, hgiven.jobs, hgiven.uses⟩

end Read

end PipelineLint
