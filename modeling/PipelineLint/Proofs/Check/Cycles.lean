import PipelineLint.Check.Cycles
import Mathlib.Data.Fintype.Card
import Mathlib.Data.List.Nodup
import Mathlib.Data.List.Perm.Subperm
import Mathlib.Data.Set.Finite.List
import Mathlib.Logic.Relation
import Mathlib.Order.WellFounded

/-! # What is stuck

Names are taken away in an order in which each comes after all names that lead to it, so a name that is
taken away is accessible along edges. Conversely a name stays only if one that leads to it stays. So what
stays is what is not accessible, and in a finite graph that is what lies on a cycle or behind one.
-/

namespace PipelineLint.Check

open Relation

/-- The map has an edge from a name to another. -/
def LeadsTo (dependencies : NameMap (List String)) (name other : String) : Prop :=
  ∃ next, (name, next) ∈ dependencies.entries ∧ other ∈ next

/-- The name lies on a cycle, or there is a way to it from a name on a cycle. -/
def BehindCycle (dependencies : NameMap (List String)) (name : String) : Prop :=
  ∃ other, TransGen (LeadsTo dependencies) other other ∧ ReflTransGen (LeadsTo dependencies) other name

theorem mem_edgesOf {dependencies : NameMap (List String)} {name other : String} :
    (name, other) ∈ edgesOf dependencies ↔ LeadsTo dependencies name other := by
  simp [edgesOf, LeadsTo]

private theorem mem_namesOf {dependencies : NameMap (List String)} {name : String} :
    name ∈ namesOf dependencies ↔ name ∈ appearances dependencies := by
  simp [namesOf, List.mem_eraseDups]

theorem LeadsTo.mem_namesOf {dependencies : NameMap (List String)} {name other : String}
    (h : LeadsTo dependencies name other) :
    name ∈ namesOf dependencies ∧ other ∈ namesOf dependencies := by
  obtain ⟨next, hn, ho⟩ := h
  simp only [Check.mem_namesOf, appearances, List.mem_flatMap]
  exact ⟨⟨_, hn, List.mem_cons_self⟩, ⟨_, hn, List.mem_cons_of_mem _ ho⟩⟩

private theorem idxOf_lt_of_filter {p : String → Bool} {a b : String} (ha : p a) (hb : p b)
    {l : List String} (h : (l.filter p).idxOf a < (l.filter p).idxOf b) : l.idxOf a < l.idxOf b := by
  induction l with
  | nil => simp at h
  | cons x l ih =>
    by_cases hxb : x = b
    · subst hxb
      simp [hb] at h
    · by_cases hxa : x = a
      · subst hxa
        simp [hxb]
      · rw [List.idxOf_cons_ne l hxa, List.idxOf_cons_ne l hxb]
        apply Nat.succ_lt_succ
        apply ih
        by_cases hx : p x = true
        · rw [List.filter_cons_of_pos hx, List.idxOf_cons_ne _ hxa, List.idxOf_cons_ne _ hxb] at h
          exact Nat.lt_of_succ_lt_succ h
        · rwa [List.filter_cons_of_neg hx] at h

private theorem eraseDups_pairwise (n : Nat) {l : List String} (hl : l.length ≤ n) :
    l.eraseDups.Pairwise fun a b => l.idxOf a < l.idxOf b := by
  induction n generalizing l with
  | zero =>
    obtain rfl := List.length_eq_zero_iff.mp (Nat.le_zero.mp hl)
    simp
  | succ n ih =>
    cases l with
    | nil => simp
    | cons x l =>
      rw [List.eraseDups_cons, List.pairwise_cons]
      have hmem : ∀ a, a ∈ (l.filter fun b => !b == x).eraseDups → (!a == x) = true :=
        fun a ha => (List.mem_filter.mp (List.mem_eraseDups.mp ha)).2
      have hne : ∀ a, a ∈ (l.filter fun b => !b == x).eraseDups → x ≠ a := by
        rintro a ha rfl
        simpa using hmem x ha
      have hlength : (l.filter fun b => !b == x).length ≤ n :=
        Nat.le_trans (List.length_filter_le _ _) (by simpa using hl)
      refine ⟨fun a ha => ?_, (ih hlength).imp_of_mem fun {a b} ha hb hab => ?_⟩
      · simp [hne a ha]
      · rw [List.idxOf_cons_ne l (hne a ha), List.idxOf_cons_ne l (hne b hb)]
        exact Nat.succ_lt_succ (idxOf_lt_of_filter (hmem a ha) (hmem b hb) hab)

/-- Names come in the order in which they first appear. -/
theorem namesOf_pairwise (dependencies : NameMap (List String)) :
    (namesOf dependencies).Pairwise fun a b =>
      (appearances dependencies).idxOf a < (appearances dependencies).idxOf b :=
  eraseDups_pairwise _ (Nat.le_refl _)

theorem namesOf_nodup (dependencies : NameMap (List String)) : (namesOf dependencies).Nodup :=
  (namesOf_pairwise dependencies).imp fun hlt heq => by simp [heq] at hlt

private theorem not_rel_self_of_acc {α : Type} {r : α → α → Prop} {a : α} (h : Acc r a) : ¬ r a a := by
  induction h with
  | intro a _ ih => exact fun haa => ih a haa haa

/-- In a finite graph a name is accessible unless it lies on a cycle or behind one. -/
theorem acc_iff_not_behindCycle (dependencies : NameMap (List String)) (name : String) :
    Acc (LeadsTo dependencies) name ↔ ¬ BehindCycle dependencies name := by
  constructor
  · rintro hacc ⟨other, hcycle, hway⟩
    have hother : Acc (LeadsTo dependencies) other := by
      rcases reflTransGen_iff_eq_or_transGen.mp hway with rfl | hway
      · exact hacc
      · exact hacc.inv_of_transGen hway
    exact not_rel_self_of_acc hother.transGen hcycle
  · intro hno
    -- Only finitely many names lead to this one, and no way leads from one of them back to it.
    let above := {other // ReflTransGen (LeadsTo dependencies) other name}
    have hfinite : {other | ReflTransGen (LeadsTo dependencies) other name}.Finite := by
      refine (List.finite_toSet (name :: namesOf dependencies)).subset fun other hother => ?_
      rcases hother.cases_head with rfl | ⟨next, hnext, -⟩
      · exact List.mem_cons_self
      · exact List.mem_cons_of_mem _ hnext.mem_namesOf.1
    have : Finite above := hfinite
    let before (a b : above) : Prop := TransGen (LeadsTo dependencies) a.1 b.1
    have : IsTrans above before := ⟨fun a b c hab hbc => hab.trans hbc⟩
    have : Std.Irrefl before := ⟨fun a haa => hno ⟨a.1, haa, a.2⟩⟩
    have hwf : WellFounded before := Finite.wellFounded_of_trans_of_irrefl before
    have hall : ∀ a : above, Acc (LeadsTo dependencies) a.1 := by
      intro a
      induction a using hwf.induction with
      | _ a ih => exact .intro _ fun b hb => ih ⟨b, .head hb a.2⟩ (.single hb)
    exact hall ⟨name, .refl⟩

namespace Peel

/-- The number of edges that lead to a name from names that are not taken away. -/
def remaining (edges : List (String × String)) (removed : List String) (name : String) : Nat :=
  edges.countP fun e => e.2 == name && !removed.contains e.1

/-- Names are being taken away, and of the last one the edges to the pending names are still to go: every
count is exact, and a name has joined the queue when nothing leads to it any more. -/
structure Peeling (edges : List (String × String)) (names : List String) (s : Peel)
    (pending : List String) : Prop where
  counts : ∀ name ∈ names, s.counts.get? name =
    some (remaining edges s.removed name + pending.count name)
  nodup : (s.removed ++ s.queue).Nodup
  inNames : ∀ name ∈ s.removed ++ s.queue, name ∈ names
  waits : ∀ name ∈ names, name ∈ s.removed ++ s.queue ↔
    remaining edges s.removed name + pending.count name = 0
  reachable : ∀ name ∈ s.removed, Acc (fun a b => (a, b) ∈ edges) name

variable {edges : List (String × String)} {names : List String}

theorem remaining_eq_zero {removed : List String} {name : String} :
    remaining edges removed name = 0 ↔ ∀ other, (other, name) ∈ edges → other ∈ removed := by
  simp only [remaining, List.countP_eq_zero, Prod.forall]
  constructor
  · intro h other he
    simpa using h other name he
  · rintro h other name' he hc
    simp only [Bool.and_eq_true, beq_iff_eq, Bool.not_eq_true', List.contains_eq_mem,
      decide_eq_false_iff_not] at hc
    obtain ⟨rfl, hc⟩ := hc
    exact hc (h other he)

private theorem mem_targets {name other : String} : other ∈ targets edges name ↔ (name, other) ∈ edges := by
  simp [targets]

/-- When a name is taken away, the edges from it are all that a count loses. -/
theorem remaining_append {removed : List String} {taken : String} (new : taken ∉ removed)
    (name : String) :
    remaining edges removed name =
      remaining edges (removed ++ [taken]) name + (targets edges taken).count name := by
  induction edges with
  | nil => rfl
  | cons e edges ih =>
    obtain ⟨a, b⟩ := e
    by_cases ha : a = taken
    · subst ha
      by_cases hb : b = name
      · subst hb
        simp [remaining, targets, new] at ih ⊢
        omega
      · simp [remaining, targets, hb] at ih ⊢
        omega
    · by_cases hb : b = name
      · subst hb
        simp [remaining, targets, ha, List.countP_cons] at ih ⊢
        omega
      · simp [remaining, targets, ha, hb] at ih ⊢
        omega

private theorem Peeling.length_le {s : Peel} {pending : List String} (h : Peeling edges names s pending) :
    s.removed.length + s.queue.length ≤ names.length := by
  have := (h.nodup.subperm h.inNames).length_le
  simpa using this

private theorem Peeling.dropEdge {s : Peel} {target : String} {pending : List String}
    (h : Peeling edges names s (target :: pending)) (ht : target ∈ names) :
    ∃ s', s.dropEdge target = .ok s' ∧ s'.removed = s.removed ∧ Peeling edges names s' pending := by
  generalize hc : remaining edges s.removed target + pending.count target = c
  have hcount : s.counts.get? target = some (c + 1) := by
    rw [h.counts target ht, List.count_cons_self, ← hc, Nat.add_assoc]
  have hold : target ∉ s.removed ++ s.queue := by
    rw [h.waits target ht, List.count_cons_self]
    omega
  have hmem : ∀ name, name ∈ s.removed ++ (if c = 0 then s.queue ++ [target] else s.queue) ↔
      name ∈ s.removed ++ s.queue ∨ (name = target ∧ c = 0) := by
    intro name
    split <;> simp [*, or_assoc]
  rw [Peel.dropEdge, hcount]
  refine ⟨_, rfl, rfl, ?_, ?_, ?_, ?_, h.reachable⟩
  · intro name hn
    by_cases hname : name = target
    · subst hname
      rw [NameMap.get?_insert_self, hc]
    · rw [NameMap.get?_insert_of_ne _ _ hname, h.counts name hn,
        List.count_cons_of_ne (Ne.symm hname)]
  · by_cases hzero : c = 0
    · rw [if_pos hzero, ← List.append_assoc]
      exact h.nodup.append (List.nodup_singleton _) (by simpa using hold)
    · rw [if_neg hzero]
      exact h.nodup
  · intro name hn
    rcases (hmem name).mp hn with hn | ⟨rfl, -⟩
    · exact h.inNames name hn
    · exact ht
  · intro name hn
    rw [hmem]
    by_cases hname : name = target
    · subst hname
      simp [hold, hc]
    · rw [h.waits name hn, List.count_cons_of_ne (Ne.symm hname)]
      simp [hname]

private theorem Peeling.dropEdges {s : Peel} {pending : List String} (h : Peeling edges names s pending)
    (hp : ∀ name ∈ pending, name ∈ names) :
    ∃ s', pending.foldlM Peel.dropEdge s = .ok s' ∧ s'.removed = s.removed ∧
      Peeling edges names s' [] := by
  induction pending generalizing s with
  | nil => exact ⟨s, rfl, rfl, h⟩
  | cons target pending ih =>
    obtain ⟨s₁, hs₁, hr₁, h₁⟩ := h.dropEdge (hp target List.mem_cons_self)
    obtain ⟨s₂, hs₂, hr₂, h₂⟩ := ih h₁ fun name hn => hp name (List.mem_cons_of_mem _ hn)
    refine ⟨s₂, ?_, hr₂.trans hr₁, h₂⟩
    rw [List.foldlM_cons, hs₁]
    exact hs₂

/-- One round takes away the first name that waits. No count falls below zero. -/
theorem Peeling.step {s : Peel} (h : Peeling edges names s [])
    (hclosed : ∀ e ∈ edges, e.2 ∈ names) {taken : String} {queue : List String}
    (hq : s.queue = taken :: queue) :
    ∃ s', Peel.step edges s = .ok s' ∧ s'.removed = s.removed ++ [taken] ∧
      Peeling edges names s' [] := by
  have hsame : (s.removed ++ [taken]) ++ queue = s.removed ++ s.queue := by simp [hq]
  have hmem : taken ∈ s.removed ++ s.queue := by simp [hq]
  have hnew : taken ∉ s.removed := by
    have := h.nodup
    rw [hq, List.nodup_append] at this
    exact fun ht => this.2.2 taken ht taken List.mem_cons_self rfl
  have hfree : ∀ other, (other, taken) ∈ edges → other ∈ s.removed := by
    have := (h.waits taken (h.inNames taken hmem)).mp hmem
    exact remaining_eq_zero.mp (by simpa using this)
  have hpeeling : Peeling edges names { s with queue, removed := s.removed ++ [taken] }
      (targets edges taken) := by
    refine ⟨?_, hsame ▸ h.nodup, hsame ▸ h.inNames, ?_, ?_⟩
    · intro name hn
      rw [h.counts name hn, remaining_append hnew]
      rfl
    · intro name hn
      rw [hsame, h.waits name hn, remaining_append hnew]
      rfl
    · intro name hn
      rcases List.mem_append.mp hn with hn | hn
      · exact h.reachable name hn
      · obtain rfl := List.mem_singleton.mp hn
        exact .intro _ fun other ho => h.reachable other (hfree other ho)
  obtain ⟨s', hs', hr', h'⟩ :=
    hpeeling.dropEdges fun name hn => hclosed _ (mem_targets.mp hn)
  refine ⟨s', ?_, hr', h'⟩
  rw [Peel.step, hq]
  simpa [hnew] using hs'

/-- As many rounds as there are names left are enough. -/
theorem Peeling.run {s : Peel} (h : Peeling edges names s []) (hclosed : ∀ e ∈ edges, e.2 ∈ names)
    (rounds : Nat) (hr : names.length ≤ rounds + s.removed.length) :
    ∃ s', Peel.run edges rounds s = .ok s' ∧ s'.queue = [] ∧ Peeling edges names s' [] := by
  induction rounds generalizing s with
  | zero =>
    have hlength := h.length_le
    have hq : s.queue = [] := List.length_eq_zero_iff.mp (by omega)
    exact ⟨s, by simp [Peel.run, hq], hq, h⟩
  | succ rounds ih =>
    cases hq : s.queue with
    | nil => exact ⟨s, by simp [Peel.run, hq], hq, h⟩
    | cons taken queue =>
      obtain ⟨s₁, hs₁, hr₁, h₁⟩ := h.step hclosed hq
      obtain ⟨s₂, hs₂, hq₂, h₂⟩ := ih h₁ (by simp [hr₁]; omega)
      refine ⟨s₂, ?_, hq₂, h₂⟩
      rw [Peel.run, hs₁, hq]
      exact hs₂

private theorem get?_tabulate {name : String} (f : String → Nat) (h : name ∈ names) :
    (⟨names.map fun n => (n, f n)⟩ : NameMap Nat).get? name = some (f name) := by
  induction names with
  | nil => simp at h
  | cons other names ih =>
    by_cases ho : other = name
    · subst ho
      simp [NameMap.get?]
    · have := ih ((List.mem_cons.mp h).resolve_left (Ne.symm ho))
      simpa [NameMap.get?, ho] using this

private theorem peeling_start (hn : names.Nodup) : Peeling edges names (start edges names) [] where
  counts := by
    intro name hname
    rw [start, get?_tabulate _ hname]
    simp [remaining]
  nodup := by simpa [start] using hn.filter _
  inNames := by
    intro name hname
    have hname : name ∈ names.filter _ := hname
    exact (List.mem_filter.mp hname).1
  waits := by
    intro name hname
    simp [start, remaining, hname]
  reachable := by simp [start]

/-- When no name waits any more, the names that are taken away are the accessible ones. -/
theorem Peeling.mem_removed_iff {s : Peel} (h : Peeling edges names s []) (hq : s.queue = [])
    (hclosed : ∀ e ∈ edges, e.1 ∈ names) {name : String} (hn : name ∈ names) :
    name ∈ s.removed ↔ Acc (fun a b => (a, b) ∈ edges) name := by
  refine ⟨h.reachable name, fun hacc => ?_⟩
  induction hacc with
  | intro name _ ih =>
    have hall : ∀ other, (other, name) ∈ edges → other ∈ s.removed :=
      fun other ho => ih other ho (hclosed _ ho)
    simpa [hq] using (h.waits name hn).mpr (by simpa using remaining_eq_zero.mpr hall)

end Peel

/-- Taking away ends with an empty queue; what it has taken away are the accessible names. -/
theorem peel_ok (dependencies : NameMap (List String)) :
    ∃ s, peel dependencies = .ok s ∧ s.queue = [] ∧ ∀ name ∈ namesOf dependencies,
      name ∈ s.removed ↔ Acc (LeadsTo dependencies) name := by
  have hclosed : ∀ e ∈ edgesOf dependencies,
      e.1 ∈ namesOf dependencies ∧ e.2 ∈ namesOf dependencies :=
    fun e he => (mem_edgesOf.mp he).mem_namesOf
  obtain ⟨s, hs, hq, h⟩ := (Peel.peeling_start (namesOf_nodup dependencies)).run
    (fun e he => (hclosed e he).2) (namesOf dependencies).length (Nat.le_add_right _ _)
  refine ⟨s, hs, hq, fun name hn => ?_⟩
  rw [h.mem_removed_iff hq (fun e he => (hclosed e he).1) hn]
  simp only [mem_edgesOf]

theorem BehindCycle.mem_namesOf {dependencies : NameMap (List String)} {name : String}
    (h : BehindCycle dependencies name) : name ∈ namesOf dependencies := by
  obtain ⟨other, hcycle, hway⟩ := h
  obtain ⟨last, -, hlast⟩ := TransGen.tail'_iff.mp (hcycle.trans_left hway)
  exact hlast.mem_namesOf.2

/-- The names that are stuck are those on a cycle or behind one. -/
theorem mem_stuck_iff {dependencies : NameMap (List String)} {name : String} :
    name ∈ stuck dependencies ↔ BehindCycle dependencies name := by
  obtain ⟨s, hs, -, hremoved⟩ := peel_ok dependencies
  have hstays : name ∈ stuck dependencies ↔ name ∈ namesOf dependencies ∧ name ∉ s.removed := by simp [stuck, hs]
  rw [hstays, ← and_iff_right_of_imp BehindCycle.mem_namesOf]
  refine and_congr_right fun hn => ?_
  rw [hremoved name hn, acc_iff_not_behindCycle, not_not]

/-- What is stuck, each name once and in the order of first appearance, are the names on a cycle or behind
one, so nothing is stuck just where there is no cycle. Taking names away ends within its rounds and never
takes away an edge from a name that no edge leads to. -/
theorem stuck_exactly_behind_cycles (dependencies : NameMap (List String)) :
    (∃ s, peel dependencies = .ok s ∧ s.queue = []) ∧
      (stuck dependencies).Nodup ∧
      ((stuck dependencies).Pairwise fun a b =>
        (appearances dependencies).idxOf a < (appearances dependencies).idxOf b) ∧
      (∀ name, name ∈ stuck dependencies ↔ BehindCycle dependencies name) ∧
      (stuck dependencies = [] ↔ ∀ name, ¬ TransGen (LeadsTo dependencies) name name) := by
  obtain ⟨s, hs, hq, hremoved⟩ := peel_ok dependencies
  have hstuck : stuck dependencies =
      (namesOf dependencies).filter fun name => !s.removed.contains name := by
    rw [stuck, hs]
  have hmem : ∀ name, name ∈ stuck dependencies ↔ BehindCycle dependencies name := by
    intro name
    rw [hstuck, List.mem_filter, Bool.not_eq_true', List.contains_eq_mem, decide_eq_false_iff_not]
    constructor
    · rintro ⟨hn, hnot⟩
      rwa [hremoved name hn, acc_iff_not_behindCycle, not_not] at hnot
    · intro h
      refine ⟨h.mem_namesOf, ?_⟩
      rw [hremoved name h.mem_namesOf, acc_iff_not_behindCycle, not_not]
      exact h
  refine ⟨⟨s, hs, hq⟩, ?_, ?_, hmem, ?_⟩
  · exact hstuck ▸ (namesOf_nodup dependencies).filter _
  · exact hstuck ▸ (namesOf_pairwise dependencies).filter _
  · rw [List.eq_nil_iff_forall_not_mem]
    constructor
    · exact fun h name hcycle => h name ((hmem name).mpr ⟨name, hcycle, .refl⟩)
    · intro h name hn
      obtain ⟨other, hcycle, -⟩ := (hmem name).mp hn
      exact h other hcycle

end PipelineLint.Check
