import Mathlib.Data.List.Basic

/-! # Visits with addresses

A thing inside other things has an address: the numbers of the parts that lead to it from the outside in. A list of
visits tells the address of each thing that is visited. Addresses are compared as words are: one that goes on comes
after its beginning, so what is outside comes before what is inside.
-/

namespace PipelineLint.Addresses

variable {α : Type} {stands : List Nat → α → Prop} {visits : List (List Nat × α)}
  {parts : List (List (List Nat × α))}

/-- Visits to all places where something stands, to each place once, in the order of their addresses. -/
structure Exact (stands : List Nat → α → Prop) (visits : List (List Nat × α)) : Prop where
  mem_iff : ∀ path x, (path, x) ∈ visits ↔ stands path x
  ordered : (visits.map Prod.fst).Pairwise (· < ·)

private theorem not_isPrefix_of_lt {path path' : List Nat} (h : path < path') : ¬ path' <+: path := by
  rintro ⟨rest, rfl⟩
  induction path' with
  | nil => exact List.not_lt_nil _ h
  | cons i path ih =>
    rw [List.cons_append, List.cons_lt_cons_iff] at h
    exact h.elim (Nat.lt_irrefl i) fun hrest => ih hrest.2

/-- Nothing is visited before what is outside of it, and nothing twice. -/
theorem Exact.outer_first (h : Exact stands visits) : visits.Pairwise fun first later => ¬ later.1 <+: first.1 :=
  (List.pairwise_map.mp h.ordered).imp not_isPrefix_of_lt

def numbered (i : Nat) : List (List (List Nat × α)) → List (List Nat × α)
  | [] => []
  | part :: parts => part.map (fun visit => (i :: visit.1, visit.2)) ++ numbered (i + 1) parts

theorem map_snd_numbered (i : Nat) (parts : List (List (List Nat × α))) :
    (numbered i parts).map Prod.snd = (parts.map (List.map Prod.snd)).flatten := by
  induction parts generalizing i with
  | nil => rfl
  | cons part parts ih => simp [numbered, ih]

theorem mem_numbered_iff {i : Nat} {path : List Nat} {x : α} : (path, x) ∈ numbered i parts ↔
    ∃ j rest part, path = (i + j) :: rest ∧ parts[j]? = some part ∧ (rest, x) ∈ part := by
  induction parts generalizing i with
  | nil => simp [numbered]
  | cons part parts ih =>
    rw [numbered, List.mem_append, ih, List.mem_map]
    constructor
    · rintro (⟨⟨rest, y⟩, hmem, heq⟩ | ⟨j, rest, part', rfl, hpart, hmem⟩)
      · obtain ⟨rfl, rfl⟩ := Prod.mk.inj heq
        exact ⟨0, rest, part, rfl, rfl, hmem⟩
      · exact ⟨j + 1, rest, part', by rw [Nat.add_assoc, Nat.add_comm 1], hpart, hmem⟩
    · rintro ⟨j, rest, part', rfl, hpart, hmem⟩
      cases j with
      | zero =>
        obtain rfl := Option.some.inj hpart
        exact .inl ⟨(rest, x), hmem, rfl⟩
      | succ j => exact .inr ⟨j, rest, part', by rw [Nat.add_assoc, Nat.add_comm 1], hpart, hmem⟩

/-- What stands in the parts of a thing, if it is known what stands in each of them. -/
theorem mem_numbered_map_iff {β : Type} {xs : List β} {f : β → List (List Nat × α)} {P : List Nat → β → Prop} {x : α}
    (h : ∀ y ∈ xs, ∀ path, (path, x) ∈ f y ↔ P path y) {path : List Nat} : (path, x) ∈ numbered 0 (xs.map f) ↔
    ∃ i rest y, path = i :: rest ∧ xs[i]? = some y ∧ P rest y := by
  simp only [mem_numbered_iff, Nat.zero_add, List.getElem?_map, Option.map_eq_some_iff]
  constructor
  · rintro ⟨i, rest, _, rfl, ⟨y, hy, rfl⟩, hmem⟩
    exact ⟨i, rest, y, rfl, hy, (h y (List.mem_of_getElem? hy) rest).mp hmem⟩
  · rintro ⟨i, rest, y, rfl, hy, hp⟩
    exact ⟨i, rest, f y, rfl, ⟨y, hy, rfl⟩, (h y (List.mem_of_getElem? hy) rest).mpr hp⟩

/-- Parts are visited in their order if each part is. -/
theorem ordered_numbered (i : Nat) (hparts : ∀ part ∈ parts, (part.map Prod.fst).Pairwise (· < ·)) :
    ((numbered i parts).map Prod.fst).Pairwise (· < ·) := by
  induction parts generalizing i with
  | nil => exact .nil
  | cons part parts ih =>
    obtain ⟨hpart, hparts⟩ := List.forall_mem_cons.mp hparts
    have hfirst : (part.map fun visit => i :: visit.1).Pairwise (· < ·) :=
      List.pairwise_map.mpr ((List.pairwise_map.mp hpart).imp fun hlt => List.cons_lt_cons_iff.mpr (.inr ⟨rfl, hlt⟩))
    rw [numbered, List.map_append, List.map_map, List.pairwise_append]
    refine ⟨hfirst, ih (i + 1) hparts, ?_⟩
    intro first hfirst later hlater
    obtain ⟨visit, -, rfl⟩ := List.mem_map.mp hfirst
    obtain ⟨⟨path, x⟩, hmem, rfl⟩ := List.mem_map.mp hlater
    obtain ⟨j, rest, -, rfl, -, -⟩ := mem_numbered_iff.mp hmem
    exact List.cons_lt_cons_iff.mpr (.inl (by omega))

/-- A thing with parts comes before its parts. -/
theorem ordered_cons (x : α) (hparts : ∀ part ∈ parts, (part.map Prod.fst).Pairwise (· < ·)) :
    ((([], x) :: numbered 0 parts).map Prod.fst).Pairwise (· < ·) := by
  refine List.pairwise_cons.mpr ⟨fun path hpath => ?_, ordered_numbered 0 hparts⟩
  obtain ⟨⟨path, y⟩, hmem, rfl⟩ := List.mem_map.mp hpath
  obtain ⟨j, rest, -, rfl, -, -⟩ := mem_numbered_iff.mp hmem
  exact List.nil_lt_cons _ _

end PipelineLint.Addresses
