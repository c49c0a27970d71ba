import PipelineLint.Proofs.Related
import PipelineLint.Proofs.Yaml.PlainMerges

/-! # Views that show the same

Of a node a view shows its kind, its place and its text, what it is to the node above it, its children, and the value
that an alias stands for. Where the nodes of two views correspond and show the same, all that is found from there on
corresponds as well, down to the pairs of mappings. The numbers of nodes matter only as far as they tell mappings
apart that a merge could enter twice.
-/

namespace PipelineLint.Yaml

open List (Forall₂)

namespace View

/-- The nodes of two views that correspond show the same. -/
structure Alike (v w : View) (R : Node → Node → Prop) : Prop where
  kind : ∀ {n m}, R n m → n.kind = m.kind
  role : ∀ {n m}, R n m → n.role = m.role
  start : ∀ {n m}, R n m → n.start = m.start
  stop : ∀ {n m}, R n m → n.stop = m.stop
  rawText : ∀ {n m}, R n m → v.rawText n = w.rawText m
  children : ∀ {n m}, R n m → Forall₂ R n.children m.children
  target : ∀ {n m}, R n m → n.kind = .alias →
    Option.Rel R (v.values.get? (v.nameOfAlias n)) (w.values.get? (w.nameOfAlias m))
  id : ∀ {n m n' m'}, R n m → R n' m' → (n.id = n'.id ↔ m.id = m'.id)

structure PairAlike (R : Node → Node → Prop) (p q : Pair) : Prop where
  node : R p.node q.node
  key : Option.Rel R p.key q.key
  rawValue : Option.Rel R p.rawValue q.rawValue
  value : Option.Rel R p.value q.value

structure ItemAlike (R : Node → Node → Prop) (i j : Item) : Prop where
  node : R i.node j.node
  rawValue : Option.Rel R i.rawValue j.rawValue
  value : Option.Rel R i.value j.value

variable {v w : View} {R : Node → Node → Prop}

theorem rel_refl (x : Option Node) : Option.Rel (· = ·) x x := by
  cases x
  · exact .none
  · exact .some rfl

/-- A view shows the same as itself. -/
theorem Alike.refl (v : View) : Alike v v (· = ·) where
  kind := by rintro n _ rfl; rfl
  role := by rintro n _ rfl; rfl
  start := by rintro n _ rfl; rfl
  stop := by rintro n _ rfl; rfl
  rawText := by rintro n _ rfl; rfl
  children := by rintro n _ rfl; exact List.forall₂_refl _
  target := by rintro n _ rfl -; exact rel_refl _
  id := by rintro n _ n' _ rfl rfl; rfl

theorem PairAlike.refl (p : Pair) : PairAlike (· = ·) p p := ⟨rfl, rel_refl _, rel_refl _, rel_refl _⟩

theorem ItemAlike.refl (i : Item) : ItemAlike (· = ·) i i := ⟨rfl, rel_refl _, rel_refl _⟩

theorem rel_flip {x y : Option Node} (h : Option.Rel R x y) : Option.Rel (flip R) y x := by
  cases h with
  | none => exact .none
  | some h => exact .some h

theorem Alike.symm (h : Alike v w R) : Alike w v (flip R) where
  kind hnm := (h.kind hnm).symm
  role hnm := (h.role hnm).symm
  start hnm := (h.start hnm).symm
  stop hnm := (h.stop hnm).symm
  rawText hnm := (h.rawText hnm).symm
  children hnm := (h.children hnm).flip
  target hnm hkind := rel_flip (h.target hnm ((h.kind hnm).trans hkind))
  id hnm hnm' := (h.id hnm hnm').symm

theorem PairAlike.symm {p q : Pair} (h : PairAlike R p q) : PairAlike (flip R) q p :=
  ⟨h.node, rel_flip h.key, rel_flip h.rawValue, rel_flip h.value⟩

theorem ItemAlike.symm {i j : Item} (h : ItemAlike R i j) : ItemAlike (flip R) j i :=
  ⟨h.node, rel_flip h.rawValue, rel_flip h.value⟩

namespace Alike

variable {n m : Node} (h : Alike v w R)
include h

theorem range (hnm : R n m) : n.range = m.range := by
  rw [Node.range, Node.range, h.start hnm, h.stop hnm]

theorem pairRange {p q : Pair} (hpq : PairAlike R p q) : p.range = q.range := h.range hpq.node

theorem keyRange {p q : Pair} (hpq : PairAlike R p q) : p.keyRange = q.keyRange := by
  rw [Pair.keyRange, Pair.keyRange, h.pairRange hpq, map_eq_of_rel hpq.key fun _ _ => h.range]

theorem valueOrPairRange {p q : Pair} (hpq : PairAlike R p q) : p.valueOrPairRange = q.valueOrPairRange := by
  rw [Pair.valueOrPairRange, Pair.valueOrPairRange, h.pairRange hpq, Pair.valueRange?, Pair.valueRange?,
    map_eq_of_rel hpq.rawValue fun _ _ => h.range]

theorem openRange {p q : Pair} (hpq : PairAlike R p q) : p.openRange = q.openRange := by
  rw [Pair.openRange, Pair.openRange, h.pairRange hpq, isSome_eq_of_rel hpq.rawValue]

theorem afterRange {p q : Pair} (hpq : PairAlike R p q) : p.afterRange = q.afterRange := by
  rw [Pair.afterRange, Pair.afterRange, h.pairRange hpq]

theorem itemRange {i j : Item} (hij : ItemAlike R i j) : i.range = j.range := h.range hij.node

theorem markerRange {i j : Item} (hij : ItemAlike R i j) : i.markerRange = j.markerRange := by
  rw [Item.markerRange, Item.markerRange, h.start hij.node]

theorem namedChildren (hnm : R n m) : Forall₂ R n.namedChildren m.namedChildren :=
  forall₂_filter (h.children hnm) fun _ _ hab => by rw [h.kind hab]

theorem child? (hnm : R n m) (kind : Kind) : Option.Rel R (n.child? kind) (m.child? kind) :=
  rel_find? (h.children hnm) fun _ _ hab => by rw [h.kind hab]

private theorem key? (hnm : R n m) : Option.Rel R n.key? m.key? :=
  rel_find? (h.children hnm) fun _ _ hab => by rw [h.role hab]

private theorem value? (hnm : R n m) : Option.Rel R n.value? m.value? :=
  rel_find? (h.children hnm) fun _ _ hab => by rw [h.role hab]

private theorem inner? (hnm : R n m) : Option.Rel R (inner? n) (inner? m) :=
  rel_find? (h.namedChildren hnm) fun _ _ hab => by rw [h.kind hab]

theorem nameOfAlias (hnm : R n m) : v.nameOfAlias n = w.nameOfAlias m := by
  rw [View.nameOfAlias, View.nameOfAlias, aliasName, aliasName, nameIn, nameIn]
  obtain ⟨hn, hm⟩ | ⟨a, b, hn, hm, hab⟩ := rel_cases (h.child? hnm .aliasName)
  · have htext : v.tree.textOf n = w.tree.textOf m := h.rawText hnm
    rw [hn, hm, htext]
  · have htext : v.tree.textOf a = w.tree.textOf b := h.rawText hab
    simp only [hn, hm, htext]

theorem aliasOf? (hnm : R n m) : Option.Rel R (aliasOf? n) (aliasOf? m) := by
  rw [View.aliasOf?, View.aliasOf?, h.kind hnm]
  split
  · exact .some hnm
  · exact h.child? hnm .alias
  · exact h.child? hnm .alias
  · exact .none

private theorem contentWithin (steps : Nat) (hnm : R n m) :
    Option.Rel R (v.contentWithin steps n) (w.contentWithin steps m) := by
  induction steps generalizing n m with
  | zero => exact .none
  | succ steps ih =>
    rw [View.contentWithin, View.contentWithin, h.kind hnm]
    split
    · exact rel_bind (h.inner? hnm) fun _ _ => ih
    · exact rel_bind (h.inner? hnm) fun _ _ => ih
    · rename_i hkind
      exact rel_bind (h.target hnm ((h.kind hnm).trans hkind)) fun _ _ => ih
    · exact .some hnm

private theorem resolveWithin (steps : Nat) (hnm : R n m) : R (v.resolveWithin steps n) (w.resolveWithin steps m) := by
  induction steps generalizing n m with
  | zero => exact hnm
  | succ steps ih =>
    rw [View.resolveWithin, View.resolveWithin]
    obtain ⟨hn, hm⟩ | ⟨a, b, hn, hm, hab⟩ := rel_cases (h.aliasOf? hnm)
    · simpa only [hn, hm] using hnm
    · have htarget := h.target hab (reaches_aliasOf? (v := v) hn).2
      obtain ⟨ht, ht'⟩ | ⟨target, target', ht, ht', hrel⟩ := rel_cases htarget
      · simpa only [hn, hm, ht, ht'] using hnm
      · simpa only [hn, hm, ht, ht'] using ih hrel

theorem resolve (hnm : R n m) : R (v.resolve n) (w.resolve m) := h.resolveWithin maxAliasSteps hnm

theorem content? (hnm : R n m) : Option.Rel R (v.content? n) (w.content? m) :=
  h.contentWithin (maxAliasSteps + 1) hnm

theorem mapping? (hnm : R n m) : Option.Rel R (v.mapping? n) (w.mapping? m) :=
  rel_filter (h.content? hnm) fun _ _ hab => by rw [h.kind hab]

theorem sequence? (hnm : R n m) : Option.Rel R (v.sequence? n) (w.sequence? m) :=
  rel_filter (h.content? hnm) fun _ _ hab => by rw [h.kind hab]

theorem scalar? (hnm : R n m) : Option.Rel R (v.scalar? n) (w.scalar? m) :=
  rel_filter (h.content? hnm) fun _ _ hab => by rw [h.kind hab]

theorem characters (hnm : R n m) : v.characters n = w.characters m := by
  rw [View.characters, View.characters]
  obtain ⟨hn, hm⟩ | ⟨a, b, hn, hm, hab⟩ := rel_cases (h.content? hnm)
  · rw [hn, hm]
  · simp only [hn, hm, h.rawText hab, h.kind hab]

theorem text (hnm : R n m) : v.text n = w.text m := by
  rw [View.text, View.text, h.characters hnm]

theorem textOrEmpty {n m : Option Node} (hnm : Option.Rel R n m) : v.textOrEmpty n = w.textOrEmpty m := by
  rw [View.textOrEmpty, View.textOrEmpty, map_eq_of_rel hnm fun _ _ => h.text]

theorem located (hnm : R n m) : v.located n = w.located m := by
  rw [View.located, View.located, h.text hnm, h.range hnm]

theorem keyText {p q : Pair} (hpq : PairAlike R p q) : v.keyText p = w.keyText q := h.textOrEmpty hpq.key

theorem pair? (hnm : R n m) : Option.Rel (PairAlike R) (v.pair? n) (w.pair? m) := by
  rw [View.pair?, View.pair?, h.kind hnm]
  split
  · refine .some ⟨hnm, h.key? hnm, h.value? hnm, ?_⟩
    obtain ⟨hn, hm⟩ | ⟨a, b, hn, hm, hab⟩ := rel_cases (h.value? hnm)
    · simpa only [hn, hm] using .none
    · simpa only [hn, hm] using .some (h.resolve hab)
  · exact .none

theorem directPairs (hnm : R n m) : Forall₂ (PairAlike R) (v.directPairs n) (w.directPairs m) := by
  rw [View.directPairs, View.directPairs]
  obtain ⟨hn, hm⟩ | ⟨a, b, hn, hm, hab⟩ := rel_cases (h.mapping? hnm)
  · simp [hn, hm]
  · simpa only [hn, hm] using List.rel_filterMap (fun _ _ hxy => h.pair? hxy) (h.children hab)

private theorem item? (hnm : R n m) : Option.Rel (ItemAlike R) (v.item? n) (w.item? m) := by
  rw [View.item?, View.item?, h.kind hnm]
  split
  · have hraw : Option.Rel R (n.children.find? (·.kind.isHolder)) (m.children.find? (·.kind.isHolder)) :=
      rel_find? (h.children hnm) fun _ _ hab => by rw [h.kind hab]
    refine .some ⟨hnm, hraw, ?_⟩
    obtain ⟨hn, hm⟩ | ⟨a, b, hn, hm, hab⟩ := rel_cases hraw
    · simpa only [hn, hm] using .none
    · simpa only [hn, hm] using .some (h.resolve hab)
  · exact .some ⟨hnm, .some hnm, .some (h.resolve hnm)⟩
  · exact .some ⟨hnm, .some hnm, .some (h.resolve hnm)⟩
  · exact .none

theorem items (hnm : R n m) : Forall₂ (ItemAlike R) (v.items n) (w.items m) := by
  rw [View.items, View.items]
  obtain ⟨hn, hm⟩ | ⟨a, b, hn, hm, hab⟩ := rel_cases (h.sequence? hnm)
  · simp [hn, hm]
  · simpa only [hn, hm] using List.rel_filterMap (fun _ _ hxy => h.item? hxy) (h.children hab)

theorem itemMapping? {i j : Item} (hij : ItemAlike R i j) :
    Option.Rel R (i.value.bind v.mapping?) (j.value.bind w.mapping?) :=
  rel_bind hij.value fun _ _ => h.mapping?

theorem texts (hnm : R n m) : v.texts n = w.texts m := by
  refine map_eq_of_forall₂ (h.items hnm) fun i j hij => ?_
  obtain ⟨hi, hj⟩ | ⟨a, b, hi, hj, hab⟩ := rel_cases hij.value
  · simp only [hi, hj, h.markerRange hij]
  · simp only [hi, hj, h.text hab, h.itemRange hij]

theorem textOrTexts (hnm : R n m) : v.textOrTexts n = w.textOrTexts m := by
  rw [View.textOrTexts, View.textOrTexts, isSome_eq_of_rel (h.sequence? hnm), h.texts hnm, h.text hnm]

theorem locatedTexts (hnm : R n m) : v.locatedTexts n = w.locatedTexts m := by
  rw [View.locatedTexts, View.locatedTexts, isSome_eq_of_rel (h.sequence? hnm), h.texts hnm, h.located hnm]

private theorem mergeSources (hnm : R n m) : Forall₂ R (v.mergeSources n) (w.mergeSources m) := by
  rw [View.mergeSources, View.mergeSources]
  obtain ⟨hn, hm⟩ | ⟨a, b, hn, hm, hab⟩ := rel_cases (h.mapping? hnm)
  · simpa only [hn, hm] using List.rel_filterMap (fun _ _ hij => h.itemMapping? hij) (h.items hnm)
  · simpa only [hn, hm] using .cons hab .nil

end Alike

/-- The states of walks in two views correspond. -/
structure VisitAlike (R : Node → Node → Prop) (s t : Visit) : Prop where
  keys : s.keys = t.keys
  entered : ∀ n m, R n m → (n.id ∈ s.entered ↔ m.id ∈ t.entered)
  pairs : Forall₂ (PairAlike R) s.pairs t.pairs

namespace Alike

variable {n m a b : Node} (h : Alike v w R)
include h

/-- Mappings with pairs that correspond merge mappings that correspond. -/
theorem merged_of_directPairs (hpairs : Forall₂ (PairAlike R) (v.directPairs a) (w.directPairs b)) :
    Forall₂ R (v.merged a) (w.merged b) := by
  refine List.rel_flatMap (forall₂_filter hpairs fun p q hpq => by rw [h.keyText hpq]) fun p q hpq => ?_
  obtain ⟨hp, hq⟩ | ⟨x, y, hp, hq, hxy⟩ := rel_cases hpq.value
  · simp [hp, hq]
  · simpa [hp, hq] using h.mergeSources hxy

/-- What a walk does from a mapping on, if walks from what it merges correspond. -/
theorem visit_step {fuel : Nat} {isRoot : Bool} {s t : Visit} (hn : v.mapping? n = some a) (hm : w.mapping? m = some b)
    (hpairs : Forall₂ (PairAlike R) (v.directPairs a) (w.directPairs b))
    (hid : ∀ x y, R x y → (x.id = a.id ↔ y.id = b.id)) (hentered : a.id ∈ s.entered ↔ b.id ∈ t.entered)
    (ih : ∀ {x y s t}, R x y → VisitAlike R s t → VisitAlike R (v.visit fuel false x s) (w.visit fuel false y t))
    (hst : VisitAlike R s t) : VisitAlike R (v.visit (fuel + 1) isRoot n s) (w.visit (fuel + 1) isRoot m t) := by
  have hold : s.entered.contains a.id = t.entered.contains b.id := by
    rw [Bool.eq_iff_iff, List.contains_iff_mem, List.contains_iff_mem]
    exact hentered
  rw [visit, visit]
  simp only [hn, hm, hold]
  split
  · exact hst
  · have hown : Forall₂ (PairAlike R) (Visited.own v isRoot s.keys a) (Visited.own w isRoot t.keys b) :=
      forall₂_filter hpairs fun p q hpq => by rw [h.keyText hpq, hst.keys]
    refine List.rel_foldl (P := VisitAlike R) (R := R) (fun _ _ hst _ _ hxy => ih hxy hst) ?_
      (h.merged_of_directPairs hpairs)
    refine ⟨?_, fun x y hxy => ?_, List.rel_append hst.pairs hown⟩
    · exact congrArg₂ (· ++ ·) hst.keys (map_eq_of_forall₂ hown fun _ _ => h.keyText)
    · simp only [List.mem_cons, hid x y hxy, hst.entered x y hxy]

theorem visit (fuel : Nat) (isRoot : Bool) {s t : Visit} (hnm : R n m) (hst : VisitAlike R s t) :
    VisitAlike R (v.visit fuel isRoot n s) (w.visit fuel isRoot m t) := by
  induction fuel generalizing isRoot n m s t with
  | zero => exact hst
  | succ fuel ih =>
    obtain ⟨hn, hm⟩ | ⟨a, b, hn, hm, hab⟩ := rel_cases (h.mapping? hnm)
    · simpa only [View.visit, hn, hm] using hst
    · exact h.visit_step hn hm (h.directPairs hab) (fun _ _ hxy => h.id hxy hab) (hst.entered a b hab) (ih false) hst

end Alike

/-- Walks in a row end up the same if each step does, whatever mappings were entered before it. -/
theorem foldl_visit_congr {values stack : List Node} {f g : Visit → Node → Visit} (bound : Nat)
    (hcontinues : ∀ reached s n, n ∈ stack → bound ≤ reached.length → Visited v values reached s →
      Continues v values reached [n] (g s n))
    (heq : ∀ reached s n, n ∈ stack → bound ≤ reached.length → Visited v values reached s → f s n = g s n)
    {reached : List Node} {s : Visit} (hbound : bound ≤ reached.length) (hs : Visited v values reached s) :
    stack.foldl f s = stack.foldl g s := by
  induction stack generalizing reached s with
  | nil => rfl
  | cons n stack ih =>
    obtain ⟨more, hmore, -⟩ := hcontinues reached s n List.mem_cons_self hbound hs
    rw [List.foldl_cons, List.foldl_cons, heq reached s n List.mem_cons_self hbound hs]
    exact ih (fun reached s n hn => hcontinues reached s n (List.mem_cons_of_mem _ hn))
      (fun reached s n hn => heq reached s n (List.mem_cons_of_mem _ hn)) (Nat.le_trans hbound (by simp)) hmore

/-- A walk that has enough steps does not change with more of them. -/
theorem visit_add {values reached : List Node} (fuel more : Nat) (isRoot : Bool) {n : Node} {s : Visit}
    (hn : n ∈ v.pool values) (hfuel : (v.pool values).length < fuel + reached.length)
    (hs : Visited v values reached s) : v.visit (fuel + more) isRoot n s = v.visit fuel isRoot n s := by
  induction fuel generalizing isRoot n reached s with
  | zero =>
    have := hs.length_le
    omega
  | succ fuel ih =>
    rw [Nat.succ_add, visit, visit]
    cases hm : v.mapping? n with
    | none => rfl
    | some a =>
      have hpool : a ∈ v.pool values := reached_mem_pool hn (reaches_mapping? hm)
      have hsource : ∀ source ∈ v.merged a, source ∈ v.pool values :=
        fun source h => reached_mem_pool hpool (reaches_merged h)
      dsimp only
      split
      · rfl
      · rename_i hold
        have hnew : a.id ∉ reached.map Node.id := by simpa [hs.entered] using hold
        refine foldl_visit_congr (reached.length + 1) ?_ ?_ (by simp) (hs.enter isRoot hpool hnew)
        · intro reached' s' source h hbound hs'
          exact visit_continues fuel false (hsource source h) (by omega) hs'
        · intro reached' s' source h hbound hs'
          exact ih false (hsource source h) (by omega) hs'

theorem pairs_eq_visit {n : Node} {fuel : Nat} (h : n.size + v.size + 1 ≤ fuel) :
    v.pairs n = (v.visit fuel true n {}).pairs := by
  obtain ⟨more, rfl⟩ := Nat.exists_eq_add_of_le h
  have hn : n ∈ v.pool [n] := start_mem_pool List.mem_cons_self
  rw [pairs, visit_add _ more true hn (by simp [length_pool]) Visited.empty]

private theorem directPairs_of_isMapping {n a : Node} (h : v.mapping? n = some a) :
    v.directPairs a = a.children.filterMap v.pair? := by
  rw [directPairs, mapping?_self h]

theorem VisitAlike.empty : VisitAlike R {} {} := ⟨rfl, fun _ _ _ => by simp, .nil⟩

namespace Alike

variable {n m a b : Node} (h : Alike v w R)
include h

theorem pairs (hnm : R n m) : Forall₂ (PairAlike R) (v.pairs n) (w.pairs m) := by
  rw [pairs_eq_visit (Nat.le_max_left _ (m.size + w.size + 1)),
    pairs_eq_visit (Nat.le_max_right (n.size + v.size + 1) _)]
  exact (h.visit _ true hnm .empty).pairs

/-- The pairs of mappings whose children correspond, even if they themselves do not. -/
theorem pairs_of_children (hn : v.mapping? n = some a) (hm : w.mapping? m = some b)
    (hchildren : Forall₂ R a.children b.children) (hid : ∀ x y, R x y → (x.id = a.id ↔ y.id = b.id)) :
    Forall₂ (PairAlike R) (v.pairs n) (w.pairs m) := by
  have hdirect : Forall₂ (PairAlike R) (v.directPairs a) (w.directPairs b) := by
    rw [directPairs_of_isMapping hn, directPairs_of_isMapping hm]
    exact List.rel_filterMap (fun _ _ hxy => h.pair? hxy) hchildren
  rw [pairs_eq_visit (Nat.succ_le_succ (Nat.le_max_left _ (m.size + w.size))),
    pairs_eq_visit (Nat.succ_le_succ (Nat.le_max_right (n.size + v.size) _))]
  exact (h.visit_step hn hm hdirect hid (by simp) (h.visit _ false) .empty).pairs

theorem find? (hnm : R n m) (key : String) : Option.Rel (PairAlike R) (v.find? n key) (w.find? m key) :=
  rel_find? (h.pairs hnm) fun _ _ hpq => by rw [h.keyText hpq]

theorem field? (hnm : R n m) (key : String) : Option.Rel R (v.field? n key) (w.field? m key) :=
  rel_bind (h.find? hnm key) fun _ _ hpq => hpq.value

end Alike

end View

end PipelineLint.Yaml
