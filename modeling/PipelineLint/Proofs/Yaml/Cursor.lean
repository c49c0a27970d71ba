import PipelineLint.Proofs.Addresses
import PipelineLint.Yaml.Cursor

/-! # The way of a cursor

What lies before a cursor are the nodes of its own subtree and those of the siblings still to come, on
every level of its path. A walk visits just these, in document order.

A cursor walks a tree in two loops. The outer one stands at a node and goes down to its first child. Where there is
none, the inner one goes on to the next sibling, or up until there is one, and ends the walk at the node where it
started. Both loops end, and they visit the nodes of the tree in document order, each address once (`walk_exact`).
-/

namespace PipelineLint.Yaml

namespace Cursor

/-- The nodes that come after the subtree of a cursor with a path. -/
def upcoming (path : List Frame) : List Node :=
  path.flatMap fun frame => Node.preorderAll frame.right

def ahead (c : Cursor) : List Node := c.node.preorder ++ upcoming c.path

private theorem length_upcoming (path : List Frame) :
    (upcoming path).length = path.foldr (fun frame n => Node.sizeAll frame.right + n) 0 := by
  induction path with
  | nil => rfl
  | cons frame path ih =>
    simp [upcoming, Node.length_preorderAll] at ih ⊢
    omega

theorem length_ahead (c : Cursor) : c.ahead.length = c.remaining := by
  rw [ahead, List.length_append, Node.length_preorder, length_upcoming, remaining]

/-- Climbing finds the first node that is still to come. -/
theorem upcoming_eq_climb (n : Node) (path : List Frame) :
    upcoming path = ((climb? n path).map ahead).getD [] := by
  induction path generalizing n with
  | nil => rfl
  | cons frame path ih =>
    obtain ⟨parent, right⟩ := frame
    cases right with
    | nil =>
      simp only [climb?, nextSibling?]
      rw [← ih parent]
      simp [upcoming]
    | cons sibling right => simp [climb?, nextSibling?, ahead, upcoming]

/-- Moving on leaves out the node itself and nothing else. -/
theorem ahead_eq_next (c : Cursor) : c.ahead = c.node :: (c.next?.map ahead).getD [] := by
  obtain ⟨n, path⟩ := c
  rw [ahead, Node.preorder_eq, next?, firstChild?]
  cases hn : n.children with
  | nil => simp [upcoming_eq_climb n path]
  | cons child right => simp [ahead, upcoming]

private theorem map_node_walkSteps (steps : Nat) (c : Cursor) (h : c.remaining ≤ steps) :
    (walkSteps steps c).map (·.node) = c.ahead := by
  induction steps generalizing c with
  | zero =>
    rw [← length_ahead, ahead_eq_next] at h
    simp at h
  | succ steps ih =>
    rw [← length_ahead, ahead_eq_next] at h
    rw [walkSteps, ahead_eq_next]
    cases hc : c.next? with
    | none => simp
    | some next =>
      have hnext : next.remaining ≤ steps := by
        rw [← length_ahead]
        simpa [hc] using h
      simp [ih next hnext]

/-- A walk visits what lies before the cursor. -/
theorem map_node_walk (c : Cursor) : c.walk.map (·.node) = c.ahead :=
  map_node_walkSteps c.remaining c (Nat.le_refl _)

/-- The places of a tree are those of its nodes in document order. -/
theorem map_node_places (root : Node) : root.places.map (·.node) = root.preorder := by
  rw [Node.places, map_node_walk]
  simp [ahead, upcoming]

theorem node_mem_preorder {root : Node} {place : Cursor} (hplace : place ∈ root.places) :
    place.node ∈ root.preorder := by
  rw [← map_node_places]
  exact List.mem_map_of_mem hplace

end Cursor

open Addresses

namespace Node

/-- The node at an address below a node: the numbers of the children that lead to it. -/
def at? : List Nat → Node → Option Node
  | [], n => some n
  | i :: path, n => n.children[i]?.bind (at? path)

mutual
/-- The nodes of a tree in document order, with their addresses. -/
def visits : Node → List (List Nat × Node)
  | n@⟨_, _, _, _, _, _, children⟩ => ([], n) :: numbered 0 (visitsAll children)
def visitsAll : List Node → List (List (List Nat × Node))
  | [] => []
  | n :: ns => visits n :: visitsAll ns
end

variable {m : Node} {path : List Nat}

theorem at?_nil_eq_some_iff {n : Node} : n.at? [] = some m ↔ m = n := by
  rw [at?, Option.some_inj, eq_comm]

theorem at?_eq_some_iff {n : Node} : n.at? path = some m ↔ path = [] ∧ m = n ∨
    ∃ i rest child, path = i :: rest ∧ n.children[i]? = some child ∧ child.at? rest = some m := by
  cases path with
  | nil => simp [at?_nil_eq_some_iff]
  | cons i rest =>
    rw [at?, Option.bind_eq_some_iff]
    constructor
    · rintro ⟨child, hchild, hm⟩
      exact .inr ⟨i, rest, child, rfl, hchild, hm⟩
    · rintro (⟨hnil, -⟩ | ⟨_, _, child, heq, hchild, hm⟩)
      · exact absurd hnil (List.cons_ne_nil i rest)
      · obtain ⟨rfl, rfl⟩ := List.cons.inj heq
        exact ⟨child, hchild, hm⟩

theorem visitsAll_eq (ns : List Node) : visitsAll ns = ns.map visits := by
  induction ns with
  | nil => simp [visitsAll]
  | cons n ns ih => rw [visitsAll, ih, List.map_cons]

mutual
private theorem map_snd_visits : (n : Node) → n.visits.map Prod.snd = n.preorder
  | ⟨_, _, _, _, _, _, children⟩ => by
    rw [visits, preorder, List.map_cons, map_snd_numbered, flatten_visitsAll children]
theorem flatten_visitsAll : (ns : List Node) → ((visitsAll ns).map (List.map Prod.snd)).flatten = preorderAll ns
  | [] => by simp [visitsAll]
  | n :: ns => by
    rw [visitsAll, preorderAll_cons, List.map_cons, List.flatten_cons, map_snd_visits n, flatten_visitsAll ns]
end

mutual
theorem mem_visits_iff : (n : Node) → ∀ path, (path, m) ∈ n.visits ↔ n.at? path = some m
  | ⟨_, _, _, _, _, _, children⟩ => fun path => by
    rw [visits, List.mem_cons, Prod.mk.injEq, visitsAll_eq, mem_numbered_map_iff (mem_visits_of_mem children),
      at?_eq_some_iff]
theorem mem_visits_of_mem : (ns : List Node) → ∀ n ∈ ns, ∀ path, (path, m) ∈ n.visits ↔ n.at? path = some m
  | [] => nofun
  | n :: ns => List.forall_mem_cons.mpr ⟨mem_visits_iff n, mem_visits_of_mem ns⟩
end

mutual
private theorem ordered_visits : (n : Node) → (n.visits.map Prod.fst).Pairwise (· < ·)
  | ⟨_, _, _, _, _, _, children⟩ => by
    rw [visits]
    exact ordered_cons _ (ordered_visitsAll children)
theorem ordered_visitsAll : (ns : List Node) → ∀ part ∈ visitsAll ns, (part.map Prod.fst).Pairwise (· < ·)
  | [] => by
    rw [visitsAll]
    exact List.forall_mem_nil _
  | n :: ns => by
    rw [visitsAll]
    exact List.forall_mem_cons.mpr ⟨ordered_visits n, ordered_visitsAll ns⟩
end

/-- Document order goes through the addresses of a tree, to each once. -/
theorem exact_visits (n : Node) : Exact (fun path m => n.at? path = some m) n.visits where
  mem_iff path _ := mem_visits_iff n path
  ordered := ordered_visits n

end Node

namespace Cursor

/-- The inner loop ends at the next sibling of the node or of a node above it, or nowhere if it cannot go up. -/
inductive Climbs : Cursor → Option Cursor → Prop where
  | sibling {c next : Cursor} (moves : c.nextSibling? = some next) : Climbs c (some next)
  | up {c above : Cursor} {found : Option Cursor} (last : c.nextSibling? = none) (moves : c.parent? = some above)
      (climbs : Climbs above found) : Climbs c found
  | out {c : Cursor} (last : c.nextSibling? = none) (top : c.parent? = none) : Climbs c none

/-- The outer loop ends when it has visited some places. -/
inductive Walks : Cursor → List Cursor → Prop where
  | down {c child : Cursor} {visited : List Cursor} (moves : c.firstChild? = some child) (walks : Walks child visited) :
      Walks c (c :: visited)
  | on {c next : Cursor} {visited : List Cursor} (leaf : c.firstChild? = none) (climbs : Climbs c (some next))
      (walks : Walks next visited) : Walks c (c :: visited)
  | out {c : Cursor} (leaf : c.firstChild? = none) (climbs : Climbs c none) : Walks c [c]

private theorem climbs_climb? (n : Node) (path : List Frame) : Climbs ⟨n, path⟩ (climb? n path) := by
  induction path generalizing n with
  | nil => exact .out rfl rfl
  | cons frame path ih =>
    rw [climb?]
    cases hnext : nextSibling? ⟨n, frame :: path⟩ with
    | some next => exact .sibling hnext
    | none => exact .up hnext rfl (ih frame.parent)

/-- The inner loop ends, and in one place only. -/
theorem climbs_iff {c : Cursor} {found : Option Cursor} : Climbs c found ↔ found = climb? c.node c.path := by
  constructor
  · intro h
    induction h with
    | @sibling c next moves =>
      obtain ⟨n, _ | ⟨frame, path⟩⟩ := c
      · simp [nextSibling?] at moves
      · rw [climb?, moves]
    | @up c above found last moves climbs ih =>
      obtain ⟨n, _ | ⟨frame, path⟩⟩ := c
      · simp [parent?] at moves
      · obtain rfl := Option.some.inj moves
        rw [climb?, last, ih]
    | @out c last top =>
      obtain ⟨n, _ | ⟨frame, path⟩⟩ := c
      · rfl
      · simp [parent?] at top
  · rintro rfl
    exact climbs_climb? c.node c.path

/-- A round of the outer loop visits its place and moves on in document order. -/
theorem walks_iff {c : Cursor} {visited : List Cursor} : Walks c visited ↔
    ∃ rest, visited = c :: rest ∧
      match c.next? with
      | none => rest = []
      | some next => Walks next rest := by
  rw [next?]
  constructor
  · intro h
    cases h with
    | down moves walks => exact ⟨_, rfl, by rwa [moves]⟩
    | on leaf climbs walks => exact ⟨_, rfl, by rwa [leaf, ← climbs_iff.mp climbs]⟩
    | out leaf climbs => exact ⟨_, rfl, by simp [leaf, ← climbs_iff.mp climbs]⟩
  · rintro ⟨rest, rfl, hrest⟩
    cases hchild : c.firstChild? with
    | some child =>
      rw [hchild] at hrest
      exact .down hchild hrest
    | none =>
      rw [hchild] at hrest
      cases hnext : climb? c.node c.path with
      | some next =>
        rw [hnext] at hrest
        exact .on hchild (climbs_iff.mpr hnext.symm) hrest
      | none =>
        rw [hnext] at hrest
        obtain rfl := hrest
        exact .out hchild (climbs_iff.mpr hnext.symm)

/-- A round leaves one place less to come. -/
theorem remaining_next {c next : Cursor} (hnext : c.next? = some next) : c.remaining = next.remaining + 1 := by
  rw [← length_ahead, ahead_eq_next, hnext, Option.map_some, Option.getD_some, List.length_cons, length_ahead]

private theorem walk_eq_of_next {c next : Cursor} (hnext : c.next? = some next) : c.walk = c :: next.walk := by
  rw [walk, remaining_next hnext, walkSteps, hnext, walk]

private theorem walk_eq_of_last {c : Cursor} (hlast : c.next? = none) : c.walk = [c] := by
  have hremaining : c.remaining = 1 := by
    rw [← length_ahead, ahead_eq_next, hlast]
    rfl
  rw [walk, hremaining, walkSteps, hlast]

/-- The outer loop ends, and in one way only: the number of places to come is what gets smaller. -/
theorem walks_iff_eq_walk {c : Cursor} {visited : List Cursor} : Walks c visited ↔ visited = c.walk := by
  induction hn : c.remaining generalizing c visited with
  | zero =>
    rw [← length_ahead, ahead_eq_next] at hn
    simp at hn
  | succ n ih =>
    rw [walks_iff]
    cases hnext : c.next? with
    | none => simp [walk_eq_of_last hnext]
    | some next =>
      have hremaining : next.remaining = n := by
        have h := remaining_next hnext
        omega
      rw [walk_eq_of_next hnext]
      constructor
      · rintro ⟨rest, rfl, hrest⟩
        rw [(ih hremaining).mp hrest]
      · rintro rfl
        exact ⟨next.walk, rfl, (ih hremaining).mpr rfl⟩

/-- From any node, the loop of a walk ends with the places of the tree below it and has no other end. Its nodes are
those of the tree in document order: each address once, and no node before those around it. -/
theorem walk_exact (root : Node) :
    (∀ visited, Walks ⟨root, []⟩ visited ↔ visited = root.places) ∧ root.places.map (·.node) = root.preorder ∧
    ∃ visits : List (List Nat × Node), visits.map Prod.snd = root.places.map (·.node) ∧
      Exact (fun path m => root.at? path = some m) visits ∧
      visits.Pairwise fun first later => ¬ later.1 <+: first.1 := by
  refine ⟨fun _ => walks_iff_eq_walk, map_node_places root, root.visits, ?_, root.exact_visits,
    root.exact_visits.outer_first⟩
  rw [map_node_places, Node.map_snd_visits]

end Cursor

end PipelineLint.Yaml
