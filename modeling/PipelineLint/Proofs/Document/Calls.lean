import PipelineLint.Document.Steps
import PipelineLint.Proofs.Document.Returns
import PipelineLint.Proofs.Yaml.Holds
import Mathlib.Data.List.Perm.Subperm
import Mathlib.Logic.Relation

/-! # The calls that reading makes

Reading steps and values goes from call to call, and the functions call each other. Which calls a call
makes depends on the tree alone. Reading ends just if no call leads back to itself: then no chain of calls
is longer than the number of calls that there are below a node, and the fuel exceeds that.
-/

namespace PipelineLint.Read

open Yaml Reads Relation

/-- A call of one of the functions that read steps and values. -/
inductive Call where
  | steps (n : Node)
  | step (i : Item)
  | conditional (n : Node)
  | invocation (value : Node)
  | assignments (ps : List Pair)
  | assignment (p : Pair)
  | listItems (n : Node)

def namedPairs (v : View) (mapping : Node) : List Pair :=
  (v.pairs mapping).filter fun q => !(v.keyText q).isEmpty

def fullPairs (v : View) (mapping : Node) : List Pair :=
  (v.pairs mapping).filter fun q => q.key.isSome && q.rawValue.isSome

namespace Call

variable (v : View)

def ofPair (p : Pair) : List Call :=
  match p.value with
  | none => []
  | some inner =>
    if v.keyText p = "run" ∨ v.keyText p = "deploy" then []
    else if v.keyText p = "when" ∨ v.keyText p = "unless" then [.conditional inner]
    else if (builtIn? v (v.keyText p) p inner).isSome then []
    else [.invocation inner]

def next : Call → List Call
  | .steps n => (v.items n).map .step
  | .step i =>
    match i.value.bind v.mapping? with
    | none => []
    | some mapping => ((v.pairs mapping).head?.map (ofPair v)).getD []
  | .conditional n =>
    (v.pairs n).filterMap fun p => if v.keyText p = "steps" then p.value.map .steps else none
  | .invocation value => ((v.mapping? value).map fun m => .assignments (namedPairs v m)).toList
  | .assignments ps => ps.map .assignment
  | .assignment p =>
    match p.key, p.rawValue with
    | some _, some raw =>
      match v.content? raw with
      | none => []
      | some content =>
        if content.kind.isSequence then [.listItems raw]
        else if content.kind.isMapping then [.assignments (fullPairs v content)]
        else []
    | _, _ => []
  | .listItems n => ((v.items n).filter (isStepItem v)).map .step

/-- A call makes another one. -/
def Makes (c d : Call) : Prop := d ∈ c.next v

/-- A call leads to one that leads back to itself. -/
def Circular (c : Call) : Prop := ∃ d, ReflTransGen (Makes v) c d ∧ TransGen (Makes v) d d

def EndsWithin (fuel : Nat) : Call → Prop
  | .steps n => Returns (Read.steps v fuel n)
  | .step i => Returns (Read.step v fuel i)
  | .conditional n => Returns (Read.conditional v fuel n)
  | .invocation value => ∀ name p, Returns (Read.invocation v fuel name p value)
  | .assignments ps => Returns (Read.assignments v fuel ps)
  | .assignment p => Returns (Read.assignment v fuel p)
  | .listItems n => ∀ name, Returns (Read.listItems v fuel name n)

variable {v} {c d : Call} {fuel : Nat}

private theorem not_endsWithin_zero : ¬ c.EndsWithin v 0 := by
  cases c <;> simp [EndsWithin, Read.steps, Read.step, Read.conditional, Read.invocation,
    Read.assignments, Read.assignment, Read.listItems]

private theorem returns_invocation_succ {name : String} {p : Pair} {value : Node} :
    Returns (Read.invocation v (fuel + 1) name p value) ↔
      ∀ m, v.mapping? value = some m → Returns (Read.assignments v fuel (namedPairs v m)) := by
  rw [Read.invocation]
  cases v.mapping? value <;> simp [namedPairs]

private theorem returns_listItems_succ {name : String} {n : Node} :
    Returns (Read.listItems v (fuel + 1) name n) ↔
      ∀ i ∈ v.items n, isStepItem v i → Returns (Read.step v fuel i) := by
  rw [Read.listItems, returns_bind_of_returns (by simp), returns_each]
  refine forall₂_congr fun i _ => ?_
  by_cases h : isStepItem v i <;> simp [h]

/-- The name of an invocation does not matter. -/
theorem returns_invocation_iff {name : String} {p : Pair} {value : Node} :
    Returns (Read.invocation v fuel name p value) ↔ (Call.invocation value).EndsWithin v fuel := by
  cases fuel with
  | zero => simp [EndsWithin, Read.invocation]
  | succ fuel => simp only [EndsWithin, returns_invocation_succ, forall_const]

/-- The name of a list does not matter. -/
theorem returns_listItems_iff {name : String} {n : Node} :
    Returns (Read.listItems v fuel name n) ↔ (Call.listItems n).EndsWithin v fuel := by
  cases fuel with
  | zero => simp [EndsWithin, Read.listItems]
  | succ fuel => simp only [EndsWithin, returns_listItems_succ, forall_const]

private theorem returns_step_succ {i : Item} :
    Returns (Read.step v (fuel + 1) i) ↔ ∀ d ∈ next v (.step i), d.EndsWithin v fuel := by
  rw [Read.step, next]
  cases hi : i.value with
  | none => simp
  | some value =>
    cases hm : v.mapping? value with
    | none => cases hk : decide (value.kind = .flowNode) <;> simp [hm] at hk ⊢ <;> simp [hk]
    | some mapping =>
      cases hp : (v.pairs mapping).head? with
      | none => simp [hm, hp]
      | some p =>
        simp only [Option.bind_some, hm, hp, Option.map_some, Option.getD_some, ofPair]
        cases hv : p.value with
        | none => simp
        | some inner =>
          by_cases hrun : v.keyText p = "run"
          · simp [hrun]
          · by_cases hdeploy : v.keyText p = "deploy"
            · simp [hdeploy]
            · by_cases hwhen : v.keyText p = "when" ∨ v.keyText p = "unless"
              · simp [hrun, hdeploy, hwhen, EndsWithin]
              · simp only [hrun, hdeploy, hwhen, if_false, or_self]
                cases builtIn? v (v.keyText p) p inner <;> simp [returns_invocation_iff]

private theorem returns_assignment_succ {p : Pair} :
    Returns (Read.assignment v (fuel + 1) p) ↔ ∀ d ∈ next v (.assignment p), d.EndsWithin v fuel := by
  rw [Read.assignment, next]
  cases hk : p.key with
  | none => simp
  | some key =>
    cases hr : p.rawValue with
    | none => simp
    | some raw =>
      dsimp only
      cases hc : v.content? raw with
      | none => simp
      | some content =>
        by_cases hs : content.kind.isSequence
        · simp [hs, returns_listItems_iff]
        · by_cases hm : content.kind.isMapping
          · simp [hs, hm, EndsWithin, fullPairs]
          · by_cases hscalar : content.kind.isScalar <;> simp [hs, hm, hscalar]

/-- A call ends with one more unit of fuel just if the calls that it makes end. -/
theorem endsWithin_succ : c.EndsWithin v (fuel + 1) ↔ ∀ d ∈ c.next v, d.EndsWithin v fuel := by
  cases c with
  | steps n => simp [EndsWithin, next, Read.steps, returns_each]
  | step i => exact returns_step_succ
  | conditional n =>
    rw [EndsWithin, Read.conditional, returns_bind_of_returns (by simp), returns_each]
    simp only [next, List.mem_filterMap, forall_exists_index, and_imp]
    rw [forall_comm]
    refine forall_congr' fun p => ?_
    rw [forall_comm]
    refine forall_congr' fun _ => ?_
    cases p.value with
    | none => simp
    | some value => by_cases h : v.keyText p = "steps" <;> simp [h, EndsWithin]
  | invocation value => simp [EndsWithin, next, returns_invocation_succ]
  | assignments ps => simp [EndsWithin, next, Read.assignments, returns_each]
  | assignment p => exact returns_assignment_succ
  | listItems n =>
    simp only [next, List.forall_mem_map, List.mem_filter, and_imp]
    simp only [EndsWithin, returns_listItems_succ, forall_const]

theorem mem_next_steps {n : Node} (h : d ∈ next v (.steps n)) :
    ∃ i, v.ItemBelow n i ∧ d = .step i := by
  obtain ⟨i, hi, rfl⟩ := List.mem_map.mp h
  exact ⟨i, View.below_of_mem_items hi, rfl⟩

theorem mem_next_listItems {n : Node} (h : d ∈ next v (.listItems n)) :
    ∃ i, v.ItemBelow n i ∧ d = .step i := by
  obtain ⟨i, hi, rfl⟩ := List.mem_map.mp h
  exact ⟨i, View.below_of_mem_items (List.mem_filter.mp hi).1, rfl⟩

theorem mem_next_step {i : Item} (h : d ∈ next v (.step i)) :
    ∃ value inner, i.value = some value ∧ v.Contains value inner ∧
      (d = .conditional inner ∨ d = .invocation inner) := by
  rw [next] at h
  split at h
  · cases h
  · rename_i mapping hm
    obtain ⟨value, hvalue, hm⟩ := Option.bind_eq_some_iff.mp hm
    cases hp : (v.pairs mapping).head? with
    | none => simp [hp] at h
    | some p =>
      have hbelow := (View.below_of_mem_pairs (List.mem_of_head? hp)).above (View.reaches_mapping? hm)
      rw [hp, Option.map_some, Option.getD_some, ofPair] at h
      split at h
      · cases h
      · rename_i inner hinner
        refine ⟨value, inner, hvalue, hbelow.value hinner, ?_⟩
        split at h
        · cases h
        · split at h
          · exact .inl (List.mem_singleton.mp h)
          · split at h
            · cases h
            · exact .inr (List.mem_singleton.mp h)

theorem mem_next_conditional {n : Node} (h : d ∈ next v (.conditional n)) :
    ∃ value, v.Contains n value ∧ d = .steps value := by
  obtain ⟨p, hp, h⟩ := List.mem_filterMap.mp h
  obtain ⟨-, h⟩ := Option.ite_none_right_eq_some.mp h
  obtain ⟨value, hvalue, rfl⟩ := Option.map_eq_some_iff.mp h
  exact ⟨value, (View.below_of_mem_pairs hp).value hvalue, rfl⟩

theorem mem_next_invocation {n : Node} (h : d ∈ next v (.invocation n)) :
    ∃ mapping, v.Reaches n mapping ∧ d = .assignments (namedPairs v mapping) := by
  rw [next, Option.mem_toList, Option.map_eq_some_iff] at h
  obtain ⟨mapping, hm, rfl⟩ := h
  exact ⟨mapping, View.reaches_mapping? hm, rfl⟩

theorem mem_next_assignments {ps : List Pair} (h : d ∈ next v (.assignments ps)) :
    ∃ p ∈ ps, d = .assignment p := by
  obtain ⟨p, hp, rfl⟩ := List.mem_map.mp h
  exact ⟨p, hp, rfl⟩

theorem mem_next_assignment {p : Pair} (h : d ∈ next v (.assignment p)) :
    ∃ raw, p.rawValue = some raw ∧ (d = .listItems raw ∨
      ∃ content, v.Reaches raw content ∧ d = .assignments (fullPairs v content)) := by
  rw [next] at h
  split at h
  · rename_i raw _ hraw
    refine ⟨raw, hraw, ?_⟩
    split at h
    · cases h
    · rename_i content hc
      split at h
      · exact .inl (List.mem_singleton.mp h)
      · split at h
        · exact .inr ⟨content, View.reaches_content? hc, List.mem_singleton.mp h⟩
        · cases h
  · cases h

private theorem Circular.of_makes (hd : d.Circular v) (h : Makes v c d) : c.Circular v := by
  obtain ⟨e, hde, he⟩ := hd
  exact ⟨e, ReflTransGen.head h hde, he⟩

theorem EndsWithin.transGen (hc : c.EndsWithin v fuel) (h : TransGen (Makes v) c d) :
    ∃ less, less < fuel ∧ d.EndsWithin v less := by
  induction h with
  | single h =>
    cases fuel with
    | zero => exact absurd hc not_endsWithin_zero
    | succ fuel => exact ⟨fuel, Nat.lt_succ_self fuel, endsWithin_succ.mp hc _ h⟩
  | tail _ h ih =>
    obtain ⟨less, hless, hd⟩ := ih
    cases less with
    | zero => exact absurd hd not_endsWithin_zero
    | succ less => exact ⟨less, by omega, endsWithin_succ.mp hd _ h⟩

/-- A call that leads back to itself does not end, whatever the fuel. -/
theorem not_endsWithin_of_transGen (h : TransGen (Makes v) d d) (fuel : Nat) : ¬ d.EndsWithin v fuel := by
  induction fuel using Nat.strongRecOn with
  | ind fuel ih =>
    intro hd
    obtain ⟨less, hless, hd⟩ := hd.transGen h
    exact ih less hless hd

theorem Circular.not_endsWithin (h : c.Circular v) (fuel : Nat) : ¬ c.EndsWithin v fuel := by
  obtain ⟨d, hcd, hd⟩ := h
  intro hc
  rcases reflTransGen_iff_eq_or_transGen.mp hcd with rfl | hcd
  · exact not_endsWithin_of_transGen hd fuel hc
  · obtain ⟨less, -, hless⟩ := hc.transGen hcd
    exact not_endsWithin_of_transGen hd less hless

/-- Calls that lead to the current one are all different, so there are no more of them than calls in all,
and fuel for all calls is enough. -/
theorem endsWithin_of_closed {calls : List Call} (hcalls : ∀ c ∈ calls, c.next v ⊆ calls) (fuel : Nat)
    {above : List Call} {c : Call} (hc : c ∈ calls) (hno : ¬ c.Circular v) (habove : above ⊆ calls)
    (hnodup : above.Nodup) (hlead : ∀ a ∈ above, TransGen (Makes v) a c)
    (hfuel : calls.length < fuel + above.length) : c.EndsWithin v fuel := by
  induction fuel generalizing above c with
  | zero =>
    have := (hnodup.subperm habove).length_le
    omega
  | succ fuel ih =>
    refine endsWithin_succ.mpr fun d hd => ?_
    have hnew : c ∉ above := fun hmem => hno ⟨c, .refl, hlead c hmem⟩
    have hnodup' : (c :: above).Nodup := List.nodup_cons.mpr ⟨hnew, hnodup⟩
    have hlead' : ∀ a ∈ c :: above, TransGen (Makes v) a d := by
      intro a ha
      rcases List.mem_cons.mp ha with rfl | ha
      · exact .single hd
      · exact (hlead a ha).tail hd
    refine ih (hcalls c hc hd) (fun hcirc => hno (hcirc.of_makes hd))
      (List.cons_subset.mpr ⟨hc, habove⟩) hnodup' hlead' ?_
    simp only [List.length_cons]
    omega

theorem endsWithin_iff_of_closed {calls : List Call} (hcalls : ∀ c ∈ calls, c.next v ⊆ calls)
    (hc : c ∈ calls) (hfuel : calls.length < fuel) : c.EndsWithin v fuel ↔ ¬ c.Circular v :=
  ⟨fun hends hcirc => hcirc.not_endsWithin fuel hends, fun hno =>
    endsWithin_of_closed hcalls fuel hc hno (List.nil_subset _) List.nodup_nil (by simp) (by simpa)⟩

def callsAt (v : View) (n : Node) : List Call :=
  [.steps n, .conditional n, .invocation n, .listItems n, .assignments (namedPairs v n),
    .assignments (fullPairs v n)] ++ ((v.item? n).map .step).toList ++ ((v.pair? n).map .assignment).toList

/-- The calls about the nodes that can be reached from some values. -/
def callsBelow (v : View) (values : List Node) : List Call := (v.pool values).flatMap (callsAt v)

variable {values : List Node}

theorem length_callsBelow : (callsBelow v values).length ≤ 8 * (v.pool values).length := by
  have hat : ∀ n, (callsAt v n).length ≤ 8 := by
    intro n
    have hitem : ((v.item? n).map Call.step).toList.length ≤ 1 := Option.length_toList_le
    have hpair : ((v.pair? n).map Call.assignment).toList.length ≤ 1 := Option.length_toList_le
    simp only [callsAt, List.length_append, List.length_cons, List.length_nil]
    omega
  rw [callsBelow]
  induction v.pool values with
  | nil => simp
  | cons n nodes ih =>
    have := hat n
    simp only [List.flatMap_cons, List.length_append, List.length_cons]
    omega

private theorem mem_callsBelow {n : Node} (hn : n ∈ v.pool values) (h : c ∈ callsAt v n) :
    c ∈ callsBelow v values :=
  List.mem_flatMap.mpr ⟨n, hn, h⟩

private theorem step_mem_callsBelow {n : Node} {i : Item} (hn : n ∈ v.pool values)
    (h : v.ItemBelow n i) : .step i ∈ callsBelow v values :=
  mem_callsBelow (View.contained_mem_pool hn h.node) (by simp [callsAt, h.eq])

private theorem assignment_mem_callsBelow {n : Node} {p : Pair} (hn : n ∈ v.pool values)
    (h : v.PairBelow n p) : .assignment p ∈ callsBelow v values :=
  mem_callsBelow (View.contained_mem_pool hn h.node) (by simp [callsAt, h.eq])

theorem next_step_subset {i : Item} (hi : ∀ n, i.value = some n → n ∈ v.pool values) :
    next v (.step i) ⊆ callsBelow v values := by
  intro d hd
  obtain ⟨value, inner, hvalue, hinner, hd⟩ := mem_next_step hd
  have hpool := View.contained_mem_pool (hi value hvalue) hinner
  rcases hd with rfl | rfl
  · exact mem_callsBelow hpool (by simp [callsAt])
  · exact mem_callsBelow hpool (by simp [callsAt])

theorem next_assignment_subset {p : Pair} (hp : ∀ n, p.rawValue = some n → n ∈ v.pool values) :
    next v (.assignment p) ⊆ callsBelow v values := by
  intro d hd
  obtain ⟨raw, hraw, hd⟩ := mem_next_assignment hd
  rcases hd with rfl | ⟨content, hc, rfl⟩
  · exact mem_callsBelow (hp raw hraw) (by simp [callsAt])
  · exact mem_callsBelow (View.reached_mem_pool (hp raw hraw) hc) (by simp [callsAt])

theorem next_assignments_subset {n : Node} {ps : List Pair} (hn : n ∈ v.pool values)
    (hps : ∀ p ∈ ps, v.PairBelow n p) : next v (.assignments ps) ⊆ callsBelow v values := by
  intro d hd
  obtain ⟨p, hp, rfl⟩ := mem_next_assignments hd
  exact assignment_mem_callsBelow hn (hps p hp)

theorem next_subset_of_mem_callsAt {n : Node} (hn : n ∈ v.pool values) (hc : c ∈ callsAt v n) :
    c.next v ⊆ callsBelow v values := by
  simp only [callsAt, List.mem_append, List.mem_cons, List.not_mem_nil, or_false,
    Option.mem_toList, Option.map_eq_some_iff] at hc
  rcases hc with ((rfl | rfl | rfl | rfl | rfl | rfl) | ⟨i, hi, rfl⟩) | ⟨p, hp, rfl⟩
  · intro d hd
    obtain ⟨i, hi, rfl⟩ := mem_next_steps hd
    exact step_mem_callsBelow hn hi
  · intro d hd
    obtain ⟨value, hvalue, rfl⟩ := mem_next_conditional hd
    exact mem_callsBelow (View.contained_mem_pool hn hvalue) (by simp [callsAt])
  · intro d hd
    obtain ⟨mapping, hm, rfl⟩ := mem_next_invocation hd
    exact mem_callsBelow (View.reached_mem_pool hn hm) (by simp [callsAt])
  · intro d hd
    obtain ⟨i, hi, rfl⟩ := mem_next_listItems hd
    exact step_mem_callsBelow hn hi
  · exact next_assignments_subset hn fun p hp => View.below_of_mem_pairs (List.mem_filter.mp hp).1
  · exact next_assignments_subset hn fun p hp => View.below_of_mem_pairs (List.mem_filter.mp hp).1
  · obtain rfl := View.node_of_item? hi
    exact next_step_subset fun x hx => View.reached_mem_pool hn (View.reaches_itemValue hi hx)
  · obtain rfl := View.node_of_pair? hp
    exact next_assignment_subset fun x hx => View.held_mem_pool hn (View.holds_rawValue hp hx)

theorem next_subset_of_mem (hc : c ∈ callsBelow v values) : c.next v ⊆ callsBelow v values := by
  obtain ⟨n, hn, hc⟩ := List.mem_flatMap.mp hc
  exact next_subset_of_mem_callsAt hn hc

/-- The fuel for some values is enough for a call that goes on below them, unless it is circular. -/
theorem endsWithin_fuelFor_iff (h : c.next v ⊆ callsBelow v values) :
    c.EndsWithin v (fuelFor v values) ↔ ¬ c.Circular v := by
  have hclosed : ∀ d ∈ c :: callsBelow v values, d.next v ⊆ c :: callsBelow v values := by
    intro d hd
    rcases List.mem_cons.mp hd with rfl | hd
    · exact List.subset_cons_of_subset _ h
    · exact List.subset_cons_of_subset _ (next_subset_of_mem hd)
  have hlength : (callsBelow v values).length ≤ 8 * (v.pool values).length := length_callsBelow
  rw [View.length_pool] at hlength
  refine endsWithin_iff_of_closed hclosed List.mem_cons_self ?_
  simp only [List.length_cons, fuelFor]
  omega

def roots : Call → List Node
  | .steps n | .conditional n | .invocation n | .listItems n => [n]
  | .step i => i.value.toList
  | .assignments ps => ps.filterMap (·.rawValue)
  | .assignment p => p.rawValue.toList

def depth (v : View) (c : Call) : Nat := (c.next v).length + fuelFor v c.roots

theorem next_subset_of_root {n : Node} (hn : n ∈ values) (hc : c ∈ callsAt v n) :
    c.next v ⊆ callsBelow v values :=
  next_subset_of_mem_callsAt (View.start_mem_pool hn) hc

private theorem next_next_subset (hd : d ∈ c.next v) : d.next v ⊆ callsBelow v c.roots := by
  cases c with
  | step i =>
    exact next_subset_of_mem (next_step_subset (fun n hn => View.start_mem_pool (by simp [roots, hn])) hd)
  | assignments ps =>
    obtain ⟨p, hp, rfl⟩ := mem_next_assignments hd
    refine next_assignment_subset fun n hn => View.start_mem_pool ?_
    exact List.mem_filterMap.mpr ⟨p, hp, hn⟩
  | assignment p =>
    exact next_subset_of_mem
      (next_assignment_subset (fun n hn => View.start_mem_pool (by simp [roots, hn])) hd)
  | steps n | conditional n | invocation n | listItems n =>
    exact next_subset_of_mem (next_subset_of_root List.mem_cons_self (by simp [callsAt]) hd)

/-- Fuel that the tree bounds is enough for a call, unless it is circular. -/
theorem endsWithin_depth_iff : c.EndsWithin v (c.depth v) ↔ ¬ c.Circular v := by
  have hclosed : ∀ d ∈ c :: (c.next v ++ callsBelow v c.roots),
      d.next v ⊆ c :: (c.next v ++ callsBelow v c.roots) := by
    intro d hd
    rcases List.mem_cons.mp hd with rfl | hd
    · exact List.subset_cons_of_subset _ (List.subset_append_left _ _)
    · refine List.subset_cons_of_subset _ (List.subset_append_of_subset_right _ ?_)
      rcases List.mem_append.mp hd with hd | hd
      · exact next_next_subset hd
      · exact next_subset_of_mem hd
  have hlength : (callsBelow v c.roots).length ≤ 8 * (v.pool c.roots).length := length_callsBelow
  rw [View.length_pool] at hlength
  refine endsWithin_iff_of_closed hclosed List.mem_cons_self ?_
  simp only [List.length_cons, List.length_append, depth, fuelFor]
  omega

end Call

variable {v : View}

theorem returns_readSteps_iff {n : Node} : Returns (readSteps v n) ↔ ¬ (Call.steps n).Circular v := by
  have hnext : (Call.steps n).next v ⊆ Call.callsBelow v [n] :=
    Call.next_subset_of_root List.mem_cons_self (by simp [Call.callsAt])
  exact Call.endsWithin_fuelFor_iff hnext

theorem returns_readStep_iff {i : Item} : Returns (readStep v i) ↔ ¬ (Call.step i).Circular v :=
  Call.endsWithin_fuelFor_iff <| Call.next_step_subset fun n hn =>
    View.start_mem_pool (by simp [hn])

theorem returns_readAssignment_iff {p : Pair} :
    Returns (readAssignment v p) ↔ ¬ (Call.assignment p).Circular v :=
  Call.endsWithin_fuelFor_iff <| Call.next_assignment_subset fun n hn =>
    View.start_mem_pool (by simp [hn])

theorem returns_readAssignments_iff {n : Node} :
    Returns (readAssignments v n) ↔ ¬ (Call.assignments (v.pairs n)).Circular v :=
  Call.endsWithin_fuelFor_iff <| Call.next_assignments_subset (View.start_mem_pool List.mem_cons_self)
    fun _ => View.below_of_mem_pairs

end PipelineLint.Read
