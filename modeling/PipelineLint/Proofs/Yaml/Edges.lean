import PipelineLint.Proofs.Yaml.Cursor
import PipelineLint.Proofs.Yaml.Numbering
import PipelineLint.Yaml.Node

/-! # The edges of a tree

What an anchor gives its name to is the node above it, so what matters of the places of a tree are its edges, from
parents to children in document order. The edges below a node stand together among those of the tree.

A part of a tree that is read alone has other numbers: `Node.shift` adds what is missing to each of them.
-/

namespace PipelineLint.Yaml

namespace Node

mutual
/-- The edges below a node, from parent to child, in document order of the children. -/
def edges : Node → List (Node × Node)
  | n@⟨_, _, _, _, _, _, children⟩ => edgesTo n children
/-- The edges from a node to some of its children, and below these. -/
def edgesTo (parent : Node) : List Node → List (Node × Node)
  | [] => []
  | c :: cs => (parent, c) :: (edges c ++ edgesTo parent cs)
end

theorem edges_eq (n : Node) : n.edges = edgesTo n n.children := by
  cases n
  simp [edges]

@[simp] theorem edgesTo_nil (parent : Node) : edgesTo parent [] = [] := by simp [edgesTo]

@[simp] theorem edgesTo_cons (parent c : Node) (cs : List Node) :
    edgesTo parent (c :: cs) = (parent, c) :: (c.edges ++ edgesTo parent cs) := by simp [edgesTo]

mutual
theorem map_snd_edges : (n : Node) → n.edges.map Prod.snd = preorderAll n.children
  | ⟨_, _, _, _, _, _, children⟩ => by rw [edges_eq, map_snd_edgesTo _ children]
private theorem map_snd_edgesTo (parent : Node) : (cs : List Node) → (edgesTo parent cs).map Prod.snd = preorderAll cs
  | [] => by simp
  | c :: cs => by simp [preorder_eq c, map_snd_edges c, map_snd_edgesTo parent cs]
end

mutual
/-- An edge leads to a child. -/
theorem mem_children_of_mem_edges {e : Node × Node} : (n : Node) → e ∈ n.edges → e.2 ∈ e.1.children
  | ⟨_, _, _, _, _, _, children⟩, he => by
    rw [edges_eq] at he
    exact mem_children_of_mem_edgesTo _ children (fun _ h => h) he
theorem mem_children_of_mem_edgesTo {e : Node × Node} (parent : Node) :
    (cs : List Node) → (∀ c ∈ cs, c ∈ parent.children) → e ∈ edgesTo parent cs → e.2 ∈ e.1.children
  | [], _, he => by simp at he
  | c :: cs, hcs, he => by
    rw [edgesTo_cons, List.mem_cons, List.mem_append] at he
    rcases he with rfl | he | he
    · exact hcs c List.mem_cons_self
    · exact mem_children_of_mem_edges c he
    · exact mem_children_of_mem_edgesTo parent cs (fun c hc => hcs c (List.mem_cons_of_mem _ hc)) he
end

mutual
/-- The nodes below a node of a tree stand in their order among those of the tree. -/
theorem preorder_sublist {m : Node} : (root : Node) → m ∈ root.preorder → m.preorder.Sublist root.preorder
  | ⟨i, kind, role, missing, start, stop, children⟩, hm => by
    rw [preorder_eq] at hm
    rcases List.mem_cons.mp hm with rfl | hm
    · exact List.Sublist.refl _
    · rw [preorder_eq ⟨i, kind, role, missing, start, stop, children⟩]
      exact (preorder_sublist_all children hm).cons _
theorem preorder_sublist_all {m : Node} : (cs : List Node) → m ∈ preorderAll cs → m.preorder.Sublist (preorderAll cs)
  | [], hm => by simp at hm
  | c :: cs, hm => by
    rw [preorderAll_cons, List.mem_append] at hm
    rw [preorderAll_cons]
    rcases hm with hm | hm
    · exact (preorder_sublist c hm).trans (List.sublist_append_left _ _)
    · exact (preorder_sublist_all cs hm).trans (List.sublist_append_right _ _)
end

/-- What is below a node of a tree has greater numbers. -/
theorem id_lt_of_mem_preorderAll {root m n : Node} (hids : (root.preorder.map id).Pairwise (· < ·))
    (hm : m ∈ root.preorder) (hn : n ∈ preorderAll m.children) : m.id < n.id := by
  have hbelow := hids.sublist ((preorder_sublist root hm).map id)
  rw [preorder_eq, List.map_cons, List.pairwise_cons] at hbelow
  exact hbelow.1 _ (List.mem_map_of_mem hn)

mutual
/-- The edges below a node of a tree stand together; those that come after them lead to nodes that come after it. -/
theorem exists_edges_append {m : Node} : (root : Node) → m ∈ root.preorder →
    ∃ before after, root.edges = before ++ (m.edges ++ after) ∧
      ((root.preorder.map id).Pairwise (· < ·) → ∀ e ∈ after, m.id < e.2.id)
  | ⟨i, kind, role, missing, start, stop, children⟩, hm => by
    rw [preorder_eq] at hm
    rcases List.mem_cons.mp hm with rfl | hm
    · exact ⟨[], [], by simp, by simp⟩
    · obtain ⟨before, after, hedges, hafter⟩ :=
        exists_edgesTo_append ⟨i, kind, role, missing, start, stop, children⟩ children hm
      refine ⟨before, after, by rw [edges_eq, hedges], fun hids => hafter ?_⟩
      rw [preorder_eq, List.map_cons, List.pairwise_cons] at hids
      exact hids.2
theorem exists_edgesTo_append {m : Node} (parent : Node) : (cs : List Node) → m ∈ preorderAll cs →
    ∃ before after, edgesTo parent cs = before ++ (m.edges ++ after) ∧
      (((preorderAll cs).map id).Pairwise (· < ·) → ∀ e ∈ after, m.id < e.2.id)
  | [], hm => by simp at hm
  | c :: cs, hm => by
    rw [preorderAll_cons, List.mem_append] at hm
    rcases hm with hm | hm
    · obtain ⟨before, after, hedges, hafter⟩ := exists_edges_append c hm
      refine ⟨(parent, c) :: before, after ++ edgesTo parent cs, by simp [hedges], fun hids e he => ?_⟩
      rw [preorderAll_cons, List.map_append, List.pairwise_append] at hids
      rcases List.mem_append.mp he with he | he
      · exact hafter hids.1 e he
      · have hcs : e.2 ∈ preorderAll cs := map_snd_edgesTo parent cs ▸ List.mem_map_of_mem he
        exact hids.2.2 _ (List.mem_map_of_mem hm) _ (List.mem_map_of_mem hcs)
    · obtain ⟨before, after, hedges, hafter⟩ := exists_edgesTo_append parent cs hm
      refine ⟨(parent, c) :: (c.edges ++ before), after, by simp [hedges], fun hids => hafter ?_⟩
      rw [preorderAll_cons, List.map_append, List.pairwise_append] at hids
      exact hids.2.1
end

private theorem mem_edgesTo {parent c : Node} {cs : List Node} (h : c ∈ cs) : (parent, c) ∈ edgesTo parent cs := by
  induction cs with
  | nil => cases h
  | cons first cs ih =>
    rw [edgesTo_cons]
    rcases List.mem_cons.mp h with rfl | h
    · exact List.mem_cons_self
    · exact List.mem_cons_of_mem _ (List.mem_append_right _ (ih h))

/-- Each child of a node of a tree is on an edge of the tree. -/
theorem mem_edges {root m c : Node} (hm : m ∈ root.preorder) (hc : c ∈ m.children) : (m, c) ∈ root.edges := by
  obtain ⟨before, after, hedges, -⟩ := exists_edges_append root hm
  rw [hedges, edges_eq]
  exact List.mem_append_right _ (List.mem_append_left _ (mem_edgesTo hc))

private theorem sublist_preorderAll (ns : List Node) : ns.Sublist (preorderAll ns) := by
  induction ns with
  | nil => exact List.Sublist.refl _
  | cons n ns ih =>
    rw [preorderAll_cons, preorder_eq, List.cons_append]
    exact (ih.trans (List.sublist_append_right _ _)).cons_cons n

section

variable {root m m' c : Node} (hids : (root.preorder.map id).Pairwise (· < ·)) (hm : m ∈ root.preorder)
include hids

theorem nodup_edges : (root.edges.map Prod.snd).Nodup := by
  rw [map_snd_edges]
  rw [preorder_eq, List.map_cons, List.pairwise_cons] at hids
  exact List.Nodup.of_map id (hids.2.imp Nat.ne_of_lt)

include hm

/-- A node is a child of one node of a tree only. -/
theorem parent_unique (hm' : m' ∈ root.preorder) (hc : c ∈ m.children) (hc' : c ∈ m'.children) : m = m' :=
  congrArg Prod.fst (List.inj_on_of_nodup_map (nodup_edges hids) (mem_edges hm hc) (mem_edges hm' hc') rfl)

theorem nodup_children : m.children.Nodup := by
  have hbelow := hids.sublist ((preorder_sublist root hm).map id)
  rw [preorder_eq, List.map_cons, List.pairwise_cons] at hbelow
  exact (List.Nodup.of_map id (hbelow.2.imp Nat.ne_of_lt)).sublist (sublist_preorderAll _)

end

end Node

namespace Cursor

def edge (c : Cursor) : Option Node × Node := (c.parentNode?, c.node)

def known (es : List (Node × Node)) : List (Option Node × Node) := es.map fun e => (some e.1, e.2)

/-- The edges that come after the subtree of a cursor with a path. -/
def upcomingEdges (path : List Frame) : List (Option Node × Node) :=
  path.flatMap fun frame => known (Node.edgesTo frame.parent frame.right)

def edgesAhead (c : Cursor) : List (Option Node × Node) := c.edge :: (known c.node.edges ++ upcomingEdges c.path)

private theorem upcomingEdges_eq_climb (n : Node) (path : List Frame) :
    upcomingEdges path = ((climb? n path).map edgesAhead).getD [] := by
  induction path generalizing n with
  | nil => rfl
  | cons frame path ih =>
    obtain ⟨parent, right⟩ := frame
    cases right with
    | nil =>
      simp only [climb?, nextSibling?]
      rw [← ih parent]
      simp [upcomingEdges, known]
    | cons sibling right => simp [climb?, nextSibling?, edgesAhead, upcomingEdges, known, edge, parentNode?]

private theorem edgesAhead_eq_next (c : Cursor) : c.edgesAhead = c.edge :: (c.next?.map edgesAhead).getD [] := by
  obtain ⟨n, path⟩ := c
  rw [edgesAhead, Node.edges_eq, next?, firstChild?]
  cases hn : n.children with
  | nil => simp [known, upcomingEdges_eq_climb n path]
  | cons child right => simp [edgesAhead, upcomingEdges, known, edge, parentNode?]

private theorem map_edge_walkSteps (steps : Nat) (c : Cursor) (h : c.remaining ≤ steps) :
    (walkSteps steps c).map edge = c.edgesAhead := by
  induction steps generalizing c with
  | zero =>
    rw [← length_ahead, ahead_eq_next] at h
    simp at h
  | succ steps ih =>
    rw [← length_ahead, ahead_eq_next] at h
    rw [walkSteps, edgesAhead_eq_next]
    cases hc : c.next? with
    | none => simp
    | some next =>
      have hnext : next.remaining ≤ steps := by
        rw [← length_ahead]
        simpa [hc] using h
      simp [ih next hnext]

/-- The places of a tree are its root and its edges. -/
theorem map_edge_places (root : Node) : root.places.map edge = (none, root) :: known root.edges := by
  rw [Node.places, walk, map_edge_walkSteps _ _ (Nat.le_refl _)]
  simp [edgesAhead, upcomingEdges, edge, parentNode?]

end Cursor

namespace Anchors

variable {t : Tree} {name : String}

/-- The definition on an edge: an anchor with a name below a node. -/
def definitionOn? (t : Tree) (e : Node × Node) : Option Definition :=
  if e.2.kind = .anchor ∧ (anchorName t e.2).isEmpty = false then some ⟨anchorName t e.2, e.2.range, e.1⟩ else none

/-- The last definition of a name on some edges in document order. -/
def lastOn? (t : Tree) (name : String) (es : List (Node × Node)) : Option Definition :=
  es.reverse.findSome? fun e => (definitionOn? t e).filter (·.name == name)

theorem lastOn?_append (xs ys : List (Node × Node)) :
    lastOn? t name (xs ++ ys) = (lastOn? t name ys).or (lastOn? t name xs) := by
  simp only [lastOn?, List.reverse_append, List.findSome?_append]

/-- The last definition of a name is on an edge. -/
theorem exists_edge_of_lastOn? {es : List (Node × Node)} {d : Definition} (h : lastOn? t name es = some d) :
    ∃ e ∈ es, e.2.kind = .anchor ∧ d.value = e.1 := by
  obtain ⟨e, he, hd⟩ := List.exists_of_findSome?_eq_some h
  have hd := (Option.filter_eq_some_iff.mp hd).1
  obtain ⟨⟨hkind, -⟩, hd⟩ := Option.ite_none_right_eq_some.mp hd
  exact ⟨e, List.mem_reverse.mp he, hkind, Option.some.inj hd ▸ rfl⟩

private theorem lastDefinition?_places (t : Tree) (name : String) :
    lastDefinition? t name t.root.places = lastOn? t name t.root.edges := by
  let definition (e : Option Node × Node) : Option Definition :=
    e.1.bind fun parent => (definitionOn? t (parent, e.2)).filter (·.name == name)
  have hplace : (fun place => (definition? t place).filter (·.name == name)) = definition ∘ Cursor.edge := by
    funext place
    rw [definition?, Function.comp_apply]
    cases hparent : place.parentNode? with
    | none => simp [definition, Cursor.edge, hparent]
    | some parent => simp [definition, Cursor.edge, hparent, definitionOn?]
  calc lastDefinition? t name t.root.places
      = (t.root.places.map Cursor.edge).reverse.findSome? definition := by
        rw [lastDefinition?, hplace, ← List.map_reverse, List.findSome?_map]
    _ = (Cursor.known t.root.edges).reverse.findSome? definition := by
        rw [Cursor.map_edge_places, List.reverse_cons, List.findSome?_append]
        simp [definition]
    _ = lastOn? t name t.root.edges := by
        rw [Cursor.known, ← List.map_reverse, List.findSome?_map]
        rfl

theorem get?_values (t : Tree) (name : String) :
    (ofTree t).values.get? name = (lastOn? t name t.root.edges).map (·.value) := by
  rw [(referred_ofTree t).values, lastDefinition?_places]

section

variable {m : Node} (hids : (t.root.preorder.map Node.id).Pairwise (· < ·)) (hm : m ∈ t.root.preorder)
include hids hm

/-- A name that means a node below another one is last defined below that one. -/
theorem lastOn?_edges_of_get? {value : Node} (hvalue : value ∈ Node.preorderAll m.children)
    (h : (ofTree t).values.get? name = some value) : (lastOn? t name m.edges).map (·.value) = some value := by
  obtain ⟨before, after, hedges, -⟩ := Node.exists_edges_append t.root hm
  have hbelow : ∀ e ∈ t.root.edges, e.1 = value → e.2 ∈ m.edges.map Prod.snd := by
    rintro e he rfl
    rw [Node.map_snd_edges]
    exact Node.child_mem_preorderAll (Node.mem_children_of_mem_edges t.root he) _ hvalue
  have hnodup := Node.nodup_edges hids
  rw [hedges, List.map_append, List.map_append, List.nodup_append] at hnodup
  rw [get?_values, hedges, lastOn?_append, lastOn?_append] at h
  cases hlast : lastOn? t name after with
  | some d =>
    obtain ⟨e, he, -, hparent⟩ := exists_edge_of_lastOn? hlast
    have hd : d.value = value := by simpa [hlast] using h
    have hmem := hbelow e (by simp [hedges, he]) (hparent.symm.trans hd)
    exact absurd rfl ((List.nodup_append.mp hnodup.2.1).2.2 _ hmem _ (List.mem_map_of_mem he))
  | none =>
    cases hinside : lastOn? t name m.edges with
    | some d => simpa [hlast, hinside] using h
    | none =>
      have hfirst : (lastOn? t name before).map (·.value) = some value := by simpa [hlast, hinside] using h
      obtain ⟨d, hd, hdvalue⟩ := Option.map_eq_some_iff.mp hfirst
      obtain ⟨e, he, -, hparent⟩ := exists_edge_of_lastOn? hd
      have hmem := hbelow e (by simp [hedges, he]) (hparent.symm.trans hdvalue)
      exact absurd rfl (hnodup.2.2 _ (List.mem_map_of_mem he) _ (List.mem_append_left _ hmem))

/-- Where no anchor comes after a node, a name that is defined below the node means what it means there. -/
theorem get?_of_lastOn?_edges {d : Definition}
    (hanchors : ∀ n ∈ t.root.preorder, n.kind = .anchor → n.id < m.id ∨ n ∈ Node.preorderAll m.children)
    (h : lastOn? t name m.edges = some d) : (ofTree t).values.get? name = some d.value := by
  obtain ⟨before, after, hedges, hafter⟩ := Node.exists_edges_append t.root hm
  have hnodup := Node.nodup_edges hids
  rw [hedges, List.map_append, List.map_append, List.nodup_append] at hnodup
  have hnone : lastOn? t name after = none := by
    cases hlast : lastOn? t name after with
    | none => rfl
    | some d' =>
      obtain ⟨e, he, hkind, -⟩ := exists_edge_of_lastOn? hlast
      have hroot : e.2 ∈ t.root.preorder := by
        rw [Node.preorder_eq, ← Node.map_snd_edges]
        exact List.mem_cons_of_mem _ (List.mem_map_of_mem (by simp [hedges, he]))
      rcases hanchors e.2 hroot hkind with hbefore | hinside
      · exact absurd hbefore (Nat.lt_asymm (hafter hids e he))
      · rw [← Node.map_snd_edges] at hinside
        exact absurd rfl ((List.nodup_append.mp hnodup.2.1).2.2 _ hinside _ (List.mem_map_of_mem he))
  rw [get?_values, hedges, lastOn?_append, lastOn?_append, hnone, h]
  rfl

end

end Anchors

namespace Node

mutual
def decEq : (n m : Node) → Decidable (n = m)
  | ⟨id, kind, role, missing, start, stop, children⟩, ⟨id', kind', role', missing', start', stop', children'⟩ =>
    match decEqAll children children' with
    | isTrue h => decidable_of_iff
        (id = id' ∧ kind = kind' ∧ role = role' ∧ missing = missing' ∧ start = start' ∧ stop = stop') (by simp [h])
    | isFalse h => isFalse (by simp [h])
def decEqAll : (ns ms : List Node) → Decidable (ns = ms)
  | [], [] => isTrue rfl
  | [], _ :: _ => isFalse (by simp)
  | _ :: _, [] => isFalse (by simp)
  | n :: ns, m :: ms =>
    match decEq n m, decEqAll ns ms with
    | isTrue h, isTrue h' => isTrue (by rw [h, h'])
    | isFalse h, _ => isFalse (by simp [h])
    | _, isFalse h => isFalse (by simp [h])
end

instance : DecidableEq Node := decEq

mutual
/-- The tree with `k` added to the number of each node. -/
def shift (k : Nat) : Node → Node
  | ⟨id, kind, role, missing, start, stop, children⟩ =>
    ⟨id + k, kind, role, missing, start, stop, shiftAll k children⟩
/-- The trees with `k` added to the number of each node. -/
def shiftAll (k : Nat) : List Node → List Node
  | [] => []
  | n :: ns => shift k n :: shiftAll k ns
end

private theorem shiftAll_eq_map (k : Nat) (ns : List Node) : shiftAll k ns = ns.map (shift k) := by
  induction ns with
  | nil => simp [shiftAll]
  | cons n ns ih => simp [shiftAll, ih]

@[simp] theorem id_shift (k : Nat) (n : Node) : (n.shift k).id = n.id + k := by
  cases n
  simp [shift]

@[simp] theorem kind_shift (k : Nat) (n : Node) : (n.shift k).kind = n.kind := by
  cases n
  simp [shift]

@[simp] theorem role_shift (k : Nat) (n : Node) : (n.shift k).role = n.role := by
  cases n
  simp [shift]

@[simp] theorem start_shift (k : Nat) (n : Node) : (n.shift k).start = n.start := by
  cases n
  simp [shift]

@[simp] theorem stop_shift (k : Nat) (n : Node) : (n.shift k).stop = n.stop := by
  cases n
  simp [shift]

@[simp] theorem children_shift (k : Nat) (n : Node) : (n.shift k).children = n.children.map (shift k) := by
  cases n
  simp [shift, shiftAll_eq_map]

mutual
theorem preorder_shift (k : Nat) : (n : Node) → (n.shift k).preorder = n.preorder.map (shift k)
  | ⟨_, _, _, _, _, _, children⟩ => by
    rw [preorder_eq, preorder_eq, children_shift, preorderAll_map_shift k children, List.map_cons]
theorem preorderAll_map_shift (k : Nat) :
    (ns : List Node) → preorderAll (ns.map (shift k)) = (preorderAll ns).map (shift k)
  | [] => by simp
  | n :: ns => by simp [preorder_shift k n, preorderAll_map_shift k ns]
end

end Node

end PipelineLint.Yaml
