import PipelineLint.Proofs.Yaml.Edges
import PipelineLint.Proofs.Yaml.Lies
import Mathlib.Data.List.Pairwise

/-! # Orderly trees

In an orderly tree (`Tree.IsOrderly`) the nodes stand in the order of the text, children inside their parent and one
after the other. Scalars hold no scalars, and what a pair holds stands in its key and its value, but for what could not
be read. So of two nodes one is below the other or stands before it, and a scalar that stands where a pair does is in
the key or the value of the pair (`Tree.IsOrderly.pair_around`).
-/

namespace PipelineLint.Yaml

open Node

/-- What is a pair is no scalar. -/
private theorem Kind.isScalar_of_isPair {kind : Kind} (h : kind.isPair) : kind.isScalar = false := by
  cases kind <;> first | rfl | cases h

namespace Node

private theorem mem_below {root m n : Node} (hm : m ∈ root.preorder) (hn : n ∈ m.preorder) : n ∈ root.preorder :=
  (preorder_sublist root hm).subset hn

/-- What holds of a node whenever it holds of its children holds of all nodes. -/
theorem forall_of_children {P : Node → Prop} (h : ∀ n, (∀ c ∈ n.children, P c) → P n) (n : Node) : P n := by
  refine preorder.induct P (fun ns => ∀ c ∈ ns, P c) (fun _ _ _ _ _ _ _ ih => h _ ih) nofun ?_ n
  exact fun _ _ ihHead ihTail => List.forall_mem_cons.mpr ⟨ihHead, ihTail⟩

private theorem preorderAll_eq_flatMap (ns : List Node) : preorderAll ns = ns.flatMap preorder := by
  induction ns with
  | nil => exact preorderAll_nil
  | cons n ns ih => rw [preorderAll_cons, ih, List.flatMap_cons]

/-- The nodes stand one after the other between two offsets. -/
def Between (first : Nat) (ns : List Node) (last : Nat) : Prop :=
  (∀ n ∈ ns, first ≤ n.start.offset ∧ n.stop.offset ≤ last) ∧ ns.Pairwise fun m n => m.stop.offset ≤ n.start.offset

instance (first : Nat) (ns : List Node) (last : Nat) : Decidable (Between first ns last) :=
  inferInstanceAs (Decidable (_ ∧ _))

/-- One of the nodes stands before the other. -/
def Apart (m n : Node) : Prop := m.stop.offset ≤ n.start.offset ∨ n.stop.offset ≤ m.start.offset

/-- A pair has at most one key and one value, and scalars in no other part of it but what could not be read. -/
def HoldsInPlace (pair : Node) : Prop :=
  (pair.children.Pairwise fun c c' => c.role = c'.role → c.role = .part) ∧
    ∀ c ∈ pair.children, c.role = .part → c.kind = .error ∨ ∀ n ∈ c.preorder, ¬ n.kind.isScalar

instance (pair : Node) : Decidable pair.HoldsInPlace := inferInstanceAs (Decidable (_ ∧ _))

private theorem find?_role {cs : List Node} {c : Node} (h : cs.Pairwise fun c c' => c.role = c'.role → c.role = .part)
    (hc : c ∈ cs) (hrole : c.role ≠ .part) : cs.find? (fun c' => decide (c'.role = c.role)) = some c := by
  induction cs with
  | nil => cases hc
  | cons first cs ih =>
    obtain ⟨hfirst, hcs⟩ := List.pairwise_cons.mp h
    rcases List.mem_cons.mp hc with rfl | hc
    · exact List.find?_cons_of_pos (decide_eq_true rfl)
    · have hne : first.role ≠ c.role := fun heq => hrole (heq ▸ hfirst c hc heq)
      rw [List.find?_cons_of_neg (by simpa using hne)]
      exact ih hcs hc

end Node

/-- The nodes stand in the order of the text. -/
structure Tree.IsOrderly (t : Tree) : Prop where
  lies : t.LiesInText
  between : ∀ n ∈ t.root.preorder, Between n.start.offset n.children n.stop.offset
  scalars : ∀ n ∈ t.root.preorder, n.kind.isScalar → ∀ m ∈ preorderAll n.children, ¬ m.kind.isScalar ∧ ¬ m.kind.isPair
  pairs : ∀ n ∈ t.root.preorder, n.kind.isPair → n.HoldsInPlace

instance (t : Tree) : Decidable t.IsOrderly :=
  decidable_of_iff (t.LiesInText ∧ (∀ n ∈ t.root.preorder, Between n.start.offset n.children n.stop.offset) ∧
      (∀ n ∈ t.root.preorder, n.kind.isScalar → ∀ m ∈ preorderAll n.children, ¬ m.kind.isScalar ∧ ¬ m.kind.isPair) ∧
      ∀ n ∈ t.root.preorder, n.kind.isPair → n.HoldsInPlace)
    ⟨fun ⟨lies, between, scalars, pairs⟩ => ⟨lies, between, scalars, pairs⟩,
      fun h => ⟨h.lies, h.between, h.scalars, h.pairs⟩⟩

namespace Tree.IsOrderly

variable {t : Tree} {k m n : Node}

/-- Nodes below a node stand inside it. -/
theorem within (h : t.IsOrderly) (hm : m ∈ t.root.preorder) (hn : n ∈ m.preorder) :
    m.start.offset ≤ n.start.offset ∧ n.stop.offset ≤ m.stop.offset := by
  induction m using forall_of_children with
  | _ m ih =>
    rw [preorder_eq, List.mem_cons] at hn
    rcases hn with rfl | hn
    · exact ⟨le_refl _, le_refl _⟩
    · obtain ⟨c, hc, hn⟩ := mem_preorderAll.mp hn
      obtain ⟨hfirst, hlast⟩ := (h.between m hm).1 c hc
      obtain ⟨hstart, hstop⟩ := ih c hc (child_mem_preorder hc _ hm) hn
      exact ⟨hfirst.trans hstart, hstop.trans hlast⟩

/-- Of two children of a node one stands before the other, with all that they hold. -/
theorem apart (h : t.IsOrderly) (hk : k ∈ t.root.preorder) {c c' : Node} (hpair : c.stop.offset ≤ c'.start.offset)
    (hc : c ∈ k.children) (hc' : c' ∈ k.children) (hm : m ∈ c.preorder) (hn : n ∈ c'.preorder) :
    m.stop.offset ≤ n.start.offset :=
  ((h.within (child_mem_preorder hc _ hk) hm).2.trans hpair).trans (h.within (child_mem_preorder hc' _ hk) hn).1

/-- Of two nodes one lies below the other, or one stands before the other. -/
theorem nested_or_apart (h : t.IsOrderly) (hk : k ∈ t.root.preorder) (hm : m ∈ k.preorder) (hn : n ∈ k.preorder) :
    m ∈ n.preorder ∨ n ∈ m.preorder ∨ Apart m n := by
  induction k using forall_of_children with
  | _ k ih =>
    have hm' := hm
    have hn' := hn
    rw [preorder_eq, List.mem_cons] at hm' hn'
    rcases hm' with rfl | hm'
    · exact .inr (.inl hn)
    rcases hn' with rfl | hn'
    · exact .inl hm
    obtain ⟨c, hc, hmc⟩ := mem_preorderAll.mp hm'
    obtain ⟨c', hc', hnc⟩ := mem_preorderAll.mp hn'
    by_cases heq : c = c'
    · subst heq
      exact ih c hc (child_mem_preorder hc _ hk) hmc hnc
    · have : Std.Symm Apart := ⟨fun _ _ => Or.symm⟩
      have heither : k.children.Pairwise Apart := (h.between k hk).2.imp .inl
      rcases heither.forall hc hc' heq with hbefore | hafter
      · exact .inr (.inr (.inl (h.apart hk hbefore hc hc' hmc hnc)))
      · exact .inr (.inr (.inr (h.apart hk hafter hc' hc hnc hmc)))

/-- The scalars of a tree stand one after the other. -/
theorem pairwise_scalars (h : t.IsOrderly) (hk : k ∈ t.root.preorder) :
    (k.preorder.filter (·.kind.isScalar)).Pairwise fun m n => m.stop.offset ≤ n.start.offset := by
  induction k using forall_of_children with
  | _ k ih =>
    have hbelow : ((preorderAll k.children).filter (·.kind.isScalar)).Pairwise
        fun m n => m.stop.offset ≤ n.start.offset := by
      rw [preorderAll_eq_flatMap, List.filter_flatMap, List.pairwise_flatMap]
      refine ⟨fun c hc => ih c hc (child_mem_preorder hc _ hk), ?_⟩
      refine (h.between k hk).2.imp_of_mem fun hc hc' hpair m hm n hn => ?_
      exact h.apart hk hpair hc hc' (List.mem_filter.mp hm).1 (List.mem_filter.mp hn).1
    rw [preorder_eq, List.filter_cons]
    split
    · next hscalar =>
      have hnone : (preorderAll k.children).filter (·.kind.isScalar) = [] := by
        simpa using fun n hn => (h.scalars k hk hscalar n hn).1
      rw [hnone]
      exact List.pairwise_singleton _ _
    · exact hbelow

/-- Of what a pair holds a scalar can only stand in the key and in the value, and in what could not be read. -/
theorem scalar_in_pair (h : t.IsOrderly) (hm : m ∈ t.root.preorder) (hpair : m.kind.isPair) (hn : n ∈ m.preorder)
    (hscalar : n.kind.isScalar) :
    (∃ key, m.key? = some key ∧ n ∈ key.preorder) ∨ (∃ value, m.value? = some value ∧ n ∈ value.preorder) ∨
      ∃ c ∈ m.children, c.kind = .error ∧ n ∈ c.preorder := by
  rw [preorder_eq, List.mem_cons] at hn
  rcases hn with rfl | hn
  · cases (Kind.isScalar_of_isPair hpair).symm.trans hscalar
  obtain ⟨c, hc, hnc⟩ := mem_preorderAll.mp hn
  obtain ⟨hroles, hparts⟩ := h.pairs m hm hpair
  cases hrole : c.role with
  | key => exact .inl ⟨c, by rw [Node.key?, ← hrole, find?_role hroles hc (by simp [hrole])], hnc⟩
  | value => exact .inr (.inl ⟨c, by rw [Node.value?, ← hrole, find?_role hroles hc (by simp [hrole])], hnc⟩)
  | part =>
    rcases hparts c hc hrole with herror | hnone
    · exact .inr (.inr ⟨c, hc, herror, hnc⟩)
    · exact absurd hscalar (hnone n hnc)

/-- The place of a node holds the places of all nodes below it. -/
theorem containsRange_of_mem (h : t.IsOrderly) (hm : m ∈ t.root.preorder) (hn : n ∈ m.preorder) :
    m.range.containsRange n.range := by
  obtain ⟨hfirst, hlast⟩ := h.within hm hn
  have hout := h.lies m hm
  have hin := h.lies n (mem_below hm hn)
  rw [Range.containsRange, Bool.and_eq_true, Range.contains_iff, Range.contains_iff]
  exact ⟨⟨hout.start.position_le hin.start hfirst, hin.start.position_le hout.stop (hin.forward.trans hlast)⟩,
    hout.start.position_le hin.stop (hfirst.trans hin.forward), hin.stop.position_le hout.stop hlast⟩

/-- Where a scalar and a pair are around one position, the scalar is in the key or the value of the pair, or in what
could not be read of it, unless the pair ends there. -/
theorem pair_around (h : t.IsOrderly) (hm : m ∈ t.root.preorder) (hpair : m.kind.isPair) (hn : n ∈ t.root.preorder)
    (hscalar : n.kind.isScalar) {p : Position} (hcontains : m.range.contains p) (hstart : n.start.position ≤ p)
    (hstop : p < n.stop.position) :
    (∃ key, m.key? = some key ∧ n ∈ key.preorder) ∨ (∃ value, m.value? = some value ∧ n ∈ value.preorder) ∨
      (∃ c ∈ m.children, c.kind = .error ∧ n ∈ c.preorder) ∨ m.stop.position = p := by
  obtain ⟨hfirst, hlast⟩ := Range.contains_iff.mp hcontains
  rcases h.nested_or_apart t.root.self_mem_preorder hm hn with hbelow | hbelow | hbefore | hafter
  · exfalso
    rw [preorder_eq, List.mem_cons] at hbelow
    rcases hbelow with rfl | hbelow
    · cases (Kind.isScalar_of_isPair hpair).symm.trans hscalar
    · exact (h.scalars n hn hscalar m hbelow).2 hpair
  · rcases h.scalar_in_pair hm hpair hbelow hscalar with hkey | hvalue | herror
    · exact .inl hkey
    · exact .inr (.inl hvalue)
    · exact .inr (.inr (.inl herror))
  · refine .inr (.inr (.inr (Position.le_antisymm ?_ hlast)))
    exact Position.le_trans ((h.lies m hm).stop.position_le (h.lies n hn).start hbefore) hstart
  · exact absurd (Position.le_trans ((h.lies n hn).stop.position_le (h.lies m hm).start hafter) hfirst) hstop.2

end Tree.IsOrderly

end PipelineLint.Yaml
