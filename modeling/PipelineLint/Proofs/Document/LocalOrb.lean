import PipelineLint.Concrete.Grammar.Stream
import PipelineLint.Document.Parse
import PipelineLint.Proofs.Document.Entities
import PipelineLint.Proofs.Document.Sections
import PipelineLint.Proofs.Results
import PipelineLint.Proofs.Text.Measure
import PipelineLint.Proofs.Yaml.Edges

/-! # Local orbs read in place

The body of a local orb is read alone, from a text in which it stands at its place. That gives what reading it in the
tree of its document would give, if the same nodes are found and the anchors of its aliases are in it:
`localOrb_read_in_place`. Else it need not: a block that is still open at the end of the body goes on to the end of the
text that is read, and an anchor outside the body is not there. The text that is read has blanks in place of all that
stands before the body, so each place in the body is at the same offset, row and column as in the whole text. Which tree
it has is up to the grammar.
-/

namespace PipelineLint

namespace Read

open Yaml

theorem blanks_append (xs ys : List Char) : blanks (xs ++ ys) = blanks xs ++ blanks ys := by
  simp [blanks]

private theorem blanks_replicate_space (n : Nat) : blanks (List.replicate n ' ') = List.replicate n ' ' := by
  induction n with
  | zero => rfl
  | succ n ih =>
    have hspace : blanks [' '] = [' '] := by decide
    rw [List.replicate_succ, ← List.singleton_append, blanks_append, ih, hspace]

theorem blanks_cons (c : Char) (cs : List Char) :
    blanks (c :: cs) = (if isBreak c then [c] else List.replicate c.utf8Size ' ') ++ blanks cs := by
  simp [blanks]

private theorem blanks_blanks (cs : List Char) : blanks (blanks cs) = blanks cs := by
  induction cs with
  | nil => rfl
  | cons c cs ih =>
    rw [blanks_cons, blanks_append, ih]
    split
    · rename_i hbreak
      simp [blanks, hbreak]
    · rw [blanks_replicate_space]

theorem byteLength_replicate_space (n : Nat) : Text.byteLength (List.replicate n ' ') = n := by
  induction n with
  | zero => rfl
  | succ n ih =>
    have hspace : Char.utf8Size ' ' = 1 := by decide
    rw [List.replicate_succ, Text.byteLength_cons, ih, hspace, Nat.add_comm]

theorem byteLength_blanks (cs : List Char) : Text.byteLength (blanks cs) = Text.byteLength cs := by
  induction cs with
  | nil => rfl
  | cons c cs ih =>
    rw [blanks_cons, Text.byteLength_append, ih, Text.byteLength_cons]
    split
    · simp
    · rw [byteLength_replicate_space]

private theorem after_replicate_space (m : Mark) (n : Nat) :
    m.after (List.replicate n ' ') = ⟨m.offset + n, m.row, m.column + n⟩ := by
  induction n generalizing m with
  | zero => rfl
  | succ n ih =>
    have hspace : m.next ' ' = ⟨m.offset + 1, m.row, m.column + 1⟩ := rfl
    have hnext : m.after (List.replicate (n + 1) ' ') = (m.next ' ').after (List.replicate n ' ') := rfl
    rw [hnext, ih, hspace]
    simp [Nat.add_assoc, Nat.add_comm 1]

/-- Blanks end at the place where the text ends that they stand for. -/
theorem after_blanks (m : Mark) (cs : List Char) : m.after (blanks cs) = m.after cs := by
  induction cs generalizing m with
  | nil => rfl
  | cons c cs ih =>
    have hfirst : m.after (if isBreak c then [c] else List.replicate c.utf8Size ' ') = m.next c := by
      split
      · rfl
      · rename_i hbreak
        have hline : c ≠ '\n' := by
          rintro rfl
          exact hbreak (by decide)
        rw [after_replicate_space, Mark.next, if_neg hline]
    have hblanks : m.after (blanks (c :: cs)) = (m.next c).after (blanks cs) := by
      rw [blanks_cons, ← hfirst]
      simp [Mark.after]
    rw [hblanks, ih]
    rfl

variable {source text : List Char} {body : Node}

/-- What a text is made of around a body, and what is read instead of it. -/
theorem exists_orbText (h : Text.slice? source body.start.offset body.stop.offset = some text) :
    ∃ before after, source = before ++ (text ++ after) ∧ orbText source body = blanks before ++ (text ++ ['\n']) ∧
      Text.byteLength before = body.start.offset ∧ body.start.offset + Text.byteLength text = body.stop.offset := by
  obtain ⟨after, hsource, hbefore, htext⟩ := Text.exists_append_of_slice? h
  exact ⟨_, after, hsource, by simp [orbText, Text.slice, h], hbefore, htext⟩

/-- What lies in a body is as it was. -/
theorem slice_orbText (h : Text.slice? source body.start.offset body.stop.offset = some text) {start stop : Nat}
    (hstart : body.start.offset ≤ start) (hstop : stop ≤ body.stop.offset) :
    Text.slice (orbText source body) start stop = Text.slice source start stop := by
  obtain ⟨before, after, hsource, horb, hbefore, htext⟩ := exists_orbText h
  by_cases hle : start ≤ stop
  · obtain ⟨start, rfl⟩ := Nat.exists_eq_add_of_le (hbefore ▸ hstart)
    obtain ⟨stop, rfl⟩ := Nat.exists_eq_add_of_le (Nat.le_trans (Nat.le_add_right _ start) hle)
    have hwithin : stop ≤ Text.byteLength text := by omega
    rw [horb, hsource, Text.slice_byteLength_add, Text.slice_append_of_le hwithin, ← byteLength_blanks before,
      Text.slice_byteLength_add, Text.slice_append_of_le hwithin]
  · simp [Text.slice, Text.slice?, hle]

/-- Up to a place in a body, the text that is read has blanks and then what the whole text has. -/
theorem exists_takeBytes_orbText (h : Text.slice? source body.start.offset body.stop.offset = some text) {offset : Nat}
    (hstart : body.start.offset ≤ offset) (hstop : offset ≤ body.stop.offset) :
    ∃ before inside, Text.takeBytes offset source = before ++ inside ∧
      Text.takeBytes offset (orbText source body) = blanks before ++ inside := by
  obtain ⟨before, after, hsource, horb, hbefore, htext⟩ := exists_orbText h
  obtain ⟨length, rfl⟩ := Nat.exists_eq_add_of_le (hbefore ▸ hstart)
  have hwithin : length ≤ Text.byteLength text := by omega
  refine ⟨before, Text.takeBytes length text, ?_, ?_⟩
  · rw [hsource, Text.takeBytes_byteLength_add, Text.takeBytes_append_of_le hwithin]
  · rw [horb, ← byteLength_blanks before, Text.takeBytes_byteLength_add, Text.takeBytes_append_of_le hwithin]

/-- Each place in a body is at the same row and column as in the whole text. -/
theorem after_takeBytes_orbText (h : Text.slice? source body.start.offset body.stop.offset = some text) {offset : Nat}
    (hstart : body.start.offset ≤ offset) (hstop : offset ≤ body.stop.offset) (m : Mark) :
    m.after (Text.takeBytes offset (orbText source body)) = m.after (Text.takeBytes offset source) := by
  obtain ⟨before, inside, hsource, horb⟩ := exists_takeBytes_orbText h hstart hstop
  have hblanks := after_blanks m before
  simp only [Mark.after] at hblanks
  rw [hsource, horb, Mark.after, Mark.after, List.foldl_append, List.foldl_append, hblanks]

/-- An orb in the body of an orb has the same text whether it is cut out of the body or out of the whole. -/
theorem orbText_orbText (h : Text.slice? source body.start.offset body.stop.offset = some text) {n : Node}
    (hstart : body.start.offset ≤ n.start.offset) (hle : n.start.offset ≤ n.stop.offset)
    (hstop : n.stop.offset ≤ body.stop.offset) : orbText (orbText source body) n = orbText source n := by
  obtain ⟨before, inside, hsource, horb⟩ := exists_takeBytes_orbText h hstart (Nat.le_trans hle hstop)
  rw [orbText, slice_orbText h hstart hstop, horb, blanks_append, blanks_blanks, ← blanks_append, ← hsource]
  rfl

end Read

open List (Forall₂)
open Yaml Yaml.View Reads

private theorem LocalOrb.find?_insert (orbs : List LocalOrb) (o : LocalOrb) (name : String) :
    LocalOrb.find? (LocalOrb.insert orbs o) name = if o.name = name then some o else LocalOrb.find? orbs name := by
  induction orbs with
  | nil => simp [LocalOrb.insert, LocalOrb.find?]
  | cons first orbs ih =>
    simp only [LocalOrb.find?] at ih
    by_cases hfirst : first.name = o.name
    · by_cases hname : o.name = name <;> simp [LocalOrb.insert, LocalOrb.find?, hfirst, hname]
    · by_cases hname : first.name = name
      · subst hname
        simp [LocalOrb.insert, LocalOrb.find?, hfirst, Ne.symm hfirst]
      · simp [LocalOrb.insert, LocalOrb.find?, hfirst, hname, ih]

theorem LocalOrb.mem_insert {orbs : List LocalOrb} {o other : LocalOrb} (h : other ∈ LocalOrb.insert orbs o) :
    other = o ∨ other ∈ orbs := by
  induction orbs with
  | nil => exact .inl (List.mem_singleton.mp h)
  | cons first orbs ih =>
    rw [LocalOrb.insert] at h
    split at h
    · rcases List.mem_cons.mp h with rfl | h
      · exact .inl rfl
      · exact .inr (List.mem_cons_of_mem _ h)
    · rcases List.mem_cons.mp h with rfl | h
      · exact .inr List.mem_cons_self
      · exact (ih h).imp_right (List.mem_cons_of_mem _)

namespace Read

/-- The value that an alias stands for. -/
def target? (v : View) (n : Node) : Option Node := v.values.get? (v.nameOfAlias n)

/-- The body of an orb has the same nodes at the same places whether it is read alone or in its document, but for their
numbers, which differ by `k`; its aliases stand for nodes in it, and alone it has no anchor after it. Its own end may
differ. -/
structure FoundAlone (t alone : Tree) (body mapping top inner : Node) (k : Nat) : Prop where
  source_eq : alone.source = orbText t.source body
  numbered : t.IsNumbered
  numberedAlone : alone.IsNumbered
  body_mem : body ∈ t.root.preorder
  hasText : (Text.slice? t.source body.start.offset body.stop.offset).isSome
  mapping_eq : (View.ofTree t).mapping? body = some mapping
  top_eq : alone.top? = some top
  inner_eq : (View.ofTree alone).mapping? top = some inner
  id_eq : mapping.id = inner.id + k
  children_eq : mapping.children = inner.children.map (Node.shift k)
  places : ∀ n ∈ Node.preorderAll inner.children, body.start.offset ≤ n.start.offset ∧
    n.start.offset ≤ n.stop.offset ∧ n.stop.offset ≤ body.stop.offset
  aliases : ∀ n ∈ Node.preorderAll inner.children, n.kind = .alias →
    ∃ m ∈ Node.preorderAll inner.children, target? (.ofTree t) (n.shift k) = some (m.shift k)
  anchors : ∀ n ∈ alone.root.preorder, n.kind = .anchor →
    n.id < inner.id ∨ n ∈ Node.preorderAll inner.children

namespace FoundAlone

variable {t alone : Tree} {body mapping top inner : Node} {k : Nat}

/-- The nodes that are found alone, with their counterparts in the document. -/
def Pairs (inner : Node) (k : Nat) (n m : Node) : Prop := m ∈ Node.preorderAll inner.children ∧ n = m.shift k

theorem forall₂_map_shift {ms : List Node} (h : ∀ m ∈ ms, m ∈ Node.preorderAll inner.children) :
    Forall₂ (Pairs inner k) (ms.map (Node.shift k)) ms := by
  rw [List.forall₂_map_left_iff]
  exact List.forall₂_same.mpr fun m hm => ⟨h m hm, rfl⟩

theorem rawText_shift (h : FoundAlone t alone body mapping top inner k) {m : Node}
    (hm : m ∈ Node.preorderAll inner.children) :
    (View.ofTree t).rawText (m.shift k) = (View.ofTree alone).rawText m := by
  obtain ⟨text, htext⟩ := Option.isSome_iff_exists.mp h.hasText
  obtain ⟨hstart, -, hstop⟩ := h.places m hm
  have hslice := slice_orbText htext hstart hstop
  simpa [rawText, Tree.textOf, View.ofTree, View.ofAnchors, h.source_eq] using hslice.symm

theorem nameIn_shift (h : FoundAlone t alone body mapping top inner k) {m : Node}
    (hm : m ∈ Node.preorderAll inner.children) (sigil : Char) (kind : Kind) :
    nameIn t sigil kind (m.shift k) = nameIn alone sigil kind m := by
  have hchild : (m.shift k).child? kind = (m.child? kind).map (Node.shift k) := by
    have hkind : (fun c : Node => decide (c.kind = kind)) ∘ Node.shift k = fun c => decide (c.kind = kind) := by
      funext c
      rw [Function.comp_apply, Node.kind_shift]
    rw [Node.child?, Node.child?, Node.children_shift, List.find?_map, hkind]
  rw [nameIn, nameIn, hchild]
  cases hname : m.child? kind with
  | none => exact congrArg (fun cs => String.ofList (cs.dropWhile (· == sigil))) (h.rawText_shift hm)
  | some name =>
    have hmem := Node.child_mem_preorderAll (List.mem_of_find?_eq_some hname) _ hm
    exact congrArg String.ofList (h.rawText_shift hmem)

/-- Nodes above an anchor that correspond: the mapping itself counts, though it need not end at the same place. -/
def Parents (mapping inner : Node) (k : Nat) (n m : Node) : Prop := n = mapping ∧ m = inner ∨ Pairs inner k n m

/-- The edges that are found alone, with their counterparts in the document. -/
structure EdgePairs (mapping inner : Node) (k : Nat) (e e' : Node × Node) : Prop where
  parent : Parents mapping inner k e.1 e'.1
  child : Pairs inner k e.2 e'.2

mutual
theorem forall₂_edges (mapping : Node) : (m : Node) → m ∈ Node.preorderAll inner.children →
    Forall₂ (EdgePairs mapping inner k) (m.shift k).edges m.edges
  | ⟨id, kind, role, missing, start, stop, children⟩, hm => by
    rw [Node.edges_eq, Node.edges_eq, Node.children_shift]
    exact forall₂_edgesTo mapping (.inr ⟨hm, rfl⟩) children fun c hc => Node.child_mem_preorderAll hc _ hm
private theorem forall₂_edgesTo (mapping : Node) {n m : Node} (hnm : Parents mapping inner k n m) : (cs : List Node) →
    (∀ c ∈ cs, c ∈ Node.preorderAll inner.children) →
    Forall₂ (EdgePairs mapping inner k) (Node.edgesTo n (cs.map (Node.shift k))) (Node.edgesTo m cs)
  | [], _ => by simp
  | c :: cs, hcs => by
    have hc := hcs c List.mem_cons_self
    rw [List.map_cons, Node.edgesTo_cons, Node.edgesTo_cons]
    refine .cons ⟨hnm, hc, rfl⟩ (List.rel_append (forall₂_edges mapping c hc) ?_)
    exact forall₂_edgesTo mapping hnm cs fun c hc => hcs c (List.mem_cons_of_mem _ hc)
end

private theorem edges (h : FoundAlone t alone body mapping top inner k) :
    Forall₂ (EdgePairs mapping inner k) mapping.edges inner.edges := by
  rw [Node.edges_eq, Node.edges_eq, h.children_eq]
  exact forall₂_edgesTo mapping (.inl ⟨rfl, rfl⟩) _ fun c hc =>
    Node.mem_preorderAll.mpr ⟨c, hc, c.self_mem_preorder⟩

/-- Names are last defined for nodes that correspond. -/
theorem lastOn? (h : FoundAlone t alone body mapping top inner k) (name : String) :
    Option.Rel (fun d d' => Parents mapping inner k d.value d'.value)
      (Anchors.lastOn? t name mapping.edges)
      (Anchors.lastOn? alone name inner.edges) := by
  refine rel_findSome? (List.rel_reverse h.edges) ?_
  rintro ⟨n, _⟩ ⟨m, c⟩ ⟨hparent, hc, rfl⟩
  have hname : anchorName t (c.shift k) = anchorName alone c :=
    h.nameIn_shift hc _ _
  simp only [Anchors.definitionOn?, Node.kind_shift, hname]
  split
  · rw [Option.filter_some, Option.filter_some]
    split
    · exact .some hparent
    · exact .none
  · exact .none

private theorem mapping_mem (h : FoundAlone t alone body mapping top inner k) : mapping ∈ t.root.preorder :=
  mem_preorder_of_reaches h.body_mem (reaches_mapping? h.mapping_eq)

theorem inner_mem (h : FoundAlone t alone body mapping top inner k) :
    inner ∈ alone.root.preorder := by
  have htop := alone.top_mem_preorder
  rw [Tree.top, h.top_eq] at htop
  exact mem_preorder_of_reaches htop (reaches_mapping? h.inner_eq)

private theorem below_mem (h : FoundAlone t alone body mapping top inner k) {m : Node}
    (hm : m ∈ Node.preorderAll inner.children) :
    m ∈ alone.root.preorder := by
  refine (Node.preorder_sublist _ h.inner_mem).subset ?_
  rw [Node.preorder_eq]
  exact List.mem_cons_of_mem _ hm

/-- What the aliases of the body stand for is found alone. -/
theorem target?_eq (h : FoundAlone t alone body mapping top inner k) {n m : Node}
    (hn : n ∈ Node.preorderAll inner.children) (hm : m ∈ Node.preorderAll inner.children)
    (htarget : target? (View.ofTree t) (n.shift k) = some (m.shift k)) :
    target? (View.ofTree alone) n = some m := by
  have hname : (View.ofTree t).nameOfAlias (n.shift k) = (View.ofTree alone).nameOfAlias n :=
    h.nameIn_shift hn _ _
  have hinside : m.shift k ∈ Node.preorderAll mapping.children := by
    rw [h.children_eq, Node.preorderAll_map_shift]
    exact List.mem_map_of_mem hm
  have hlast := Anchors.lastOn?_edges_of_get? h.numbered h.mapping_mem hinside htarget
  rw [hname] at hlast
  obtain ⟨hnone, -⟩ | ⟨d, d', hd, hd', hparent⟩ := rel_cases (h.lastOn? ((View.ofTree alone).nameOfAlias n))
  · simp [hnone] at hlast
  have hvalue : d.value = m.shift k := by simpa [hd] using hlast
  have hfound : d'.value = m := by
    rcases hparent with ⟨hmapping, -⟩ | ⟨hd'mem, hshift⟩
    · have hlt := Node.id_lt_of_mem_preorderAll h.numberedAlone h.inner_mem hm
      have hid := congrArg Node.id (hmapping.symm.trans hvalue)
      rw [h.id_eq, Node.id_shift] at hid
      omega
    · have hid := congrArg Node.id (hshift.symm.trans hvalue)
      rw [Node.id_shift, Node.id_shift] at hid
      exact h.numberedAlone.eq_of_id_eq (h.below_mem hd'mem) (h.below_mem hm) (Nat.add_right_cancel hid)
  rw [← hfound]
  exact Anchors.get?_of_lastOn?_edges h.numberedAlone h.inner_mem h.anchors hd'

theorem alike (h : FoundAlone t alone body mapping top inner k) :
    Alike (View.ofTree t) (View.ofTree alone) (Pairs inner k) where
  kind := by
    rintro _ m ⟨-, rfl⟩
    simp
  role := by
    rintro _ m ⟨-, rfl⟩
    simp
  start := by
    rintro _ m ⟨-, rfl⟩
    simp
  stop := by
    rintro _ m ⟨-, rfl⟩
    simp
  rawText := by
    rintro _ m ⟨hm, rfl⟩
    exact h.rawText_shift hm
  children := by
    rintro _ m ⟨hm, rfl⟩
    rw [Node.children_shift]
    exact forall₂_map_shift fun c hc => Node.child_mem_preorderAll hc _ hm
  target := by
    rintro _ n ⟨hn, rfl⟩ hkind
    rw [Node.kind_shift] at hkind
    obtain ⟨m, hm, htarget⟩ := h.aliases n hn hkind
    have halone := h.target?_eq hn hm htarget
    rw [target?] at htarget halone
    rw [htarget, halone]
    exact .some ⟨hm, rfl⟩
  id := by
    rintro _ m _ m' ⟨-, rfl⟩ ⟨-, rfl⟩
    simp

/-- The pairs of the body are found alone. -/
theorem pairs (h : FoundAlone t alone body mapping top inner k) :
    Forall₂ (PairAlike (Pairs inner k)) ((View.ofTree t).pairs body) ((View.ofTree alone).pairs top) := by
  refine h.alike.pairs_of_children h.mapping_eq h.inner_eq ?_ ?_
  · rw [h.children_eq]
    exact forall₂_map_shift fun m hm => Node.mem_preorderAll.mpr ⟨m, hm, m.self_mem_preorder⟩
  · rintro _ m ⟨-, rfl⟩
    rw [h.id_eq, Node.id_shift, Nat.add_right_cancel_iff]

end FoundAlone

/-- Reads the body of an orb in the tree of its document, as a document of its own. -/
def inPlace (t alone : Tree) (nested : List Char → Except Endless Document) (body : Node) :
    Except Endless Document :=
  match readEntities (.ofTree t) nested { Document.ofTree .orb alone with anchors := .ofTree alone } body with
  | .error e => .error e
  | .ok (read, findings) => .ok { read with diagnostics := findings }

variable {t alone : Tree} {body mapping top inner : Node} {k : Nat}

/-- A body that is found alone is read alone as it is read in its document. -/
theorem ofTreeWith_alone (h : FoundAlone t alone body mapping top inner k)
    (nested : List Char → Except Endless Document) : ofTreeWith nested .orb alone = inPlace t alone nested body := by
  have htext : ∀ {n m : Node}, FoundAlone.Pairs inner k n m →
      orbText (View.ofTree t).tree.source n = orbText (View.ofTree alone).tree.source m := by
    rintro _ m ⟨hm, rfl⟩
    obtain ⟨text, htext⟩ := Option.isSome_iff_exists.mp h.hasText
    obtain ⟨hstart, hle, hstop⟩ := h.places m hm
    have hshift : orbText t.source (m.shift k) = orbText t.source m := by
      simp only [orbText, Node.start_shift, Node.stop_shift]
    show orbText t.source (m.shift k) = orbText alone.source m
    rw [h.source_eq]
    exact hshift.trans (orbText_orbText htext hstart hle hstop).symm
  have hread (d : Document) : readEntities (.ofTree t) nested d body = readEntities (.ofTree alone) nested d top :=
    readEntities_alike h.alike htext d h.pairs
  rw [inPlace, hread, ofTreeWith, contents, h.top_eq]
  rfl

def CutFrom (nested : List Char → Except Endless Document) (t : Tree) (o : LocalOrb) : Prop :=
  ∃ body ∈ t.root.preorder, o.range = body.range ∧ nested (orbText t.source body) = .ok o.document

private theorem always_orb {nested : List Char → Except Endless Document} {p : Pair} {n : Node}
    (hn : n ∈ t.root.preorder) (hp : p ∈ (View.ofTree t).pairs n) :
    Always (fun found => ∀ use o, found = some (use, some o) → CutFrom nested t o) (orb (.ofTree t) nested p) := by
  unfold orb
  cases hkey : p.key with
  | none => exact always_pure nofun
  | some key =>
    cases hvalue : p.rawValue with
    | none => exact always_pure nofun
    | some value =>
      have hmem := mem_preorder_of_reaches hn ((below_of_mem_pairs hp).rawValue hvalue).to_reflTransGen
      dsimp only
      split
      · exact always_pure (by simp)
      · split
        · exact always_pure nofun
        · split
          · exact always_endless
          · rename_i document hdocument
            refine always_bind fun _ => always_pure ?_
            rintro use o ⟨⟩
            exact ⟨value, hmem, rfl, hdocument⟩
      · exact always_pure nofun

private theorem always_orbs {nested : List Char → Except Endless Document} {n : Node}
    (hn : n ∈ t.root.preorder) :
    Always (fun found => ∀ o ∈ found.2, CutFrom nested t o) (orbs (.ofTree t) nested n) := by
  refine always_through (fun found p hp hfound => (always_orb hn hp).bind fun read hread => ?_) (by simp)
  rcases read with _ | ⟨use, _ | inner⟩
  · exact always_pure hfound
  · exact always_pure hfound
  · refine always_pure fun o ho => ?_
    rcases LocalOrb.mem_insert ho with rfl | ho
    · exact hread use _ rfl
    · exact hfound o ho

def orbsOf (d : Document) : NameMap OrbUse × List LocalOrb := (d.orbs, d.localOrbs)

section Section

variable {v : View} {nested : List Char → Except Endless Document} {I : NameMap OrbUse × List LocalOrb → Prop}
  {d : Document}

private theorem always_readSection {name : String} {p : Pair}
    (horbs : ∀ value ∈ p.value, Always I (orbs v nested value))
    (hd : I (orbsOf d)) : Always (fun read => I (orbsOf read)) (readSection v nested d name p) := by
  unfold readSection
  split
  · exact always_pure hd
  · exact always_pure hd
  · rename_i value hp
    exact (horbs value hp).bind fun found hfound => always_pure hfound
  all_goals first | exact always_pure hd | exact always_bind fun _ => always_pure hd

theorem orbsOf_giveContexts (d : Document) : orbsOf (giveContexts d) = orbsOf d :=
  giveContexts_induction (I := fun given => orbsOf given = orbsOf d) (fun _ _ h => h) (fun _ _ h => h) rfl

end Section

/-- The orbs of a document are what is read of a node of its tree, or none. -/
theorem orbsOf_of_ofTreeWith {nested : List Char → Except Endless Document} {kind : DocumentKind} {d : Document}
    {I : NameMap OrbUse × List LocalOrb → Prop} (hnone : I (∅, []))
    (horbs : ∀ n ∈ t.root.preorder, Always I (orbs (.ofTree t) nested n)) (hd : ofTreeWith nested kind t = .ok d) :
    I (orbsOf d) := by
  obtain ⟨read, findings, hread, rfl⟩ := exists_read_of_ofTreeWith (I := fun read => I (orbsOf read)) hd
    hnone fun read name p hp hread => by
      refine always_readSection (fun value hvalue => horbs value ?_) hread
      have hbelow := below_of_mem_pairs (List.mem_of_find?_eq_some hp)
      exact mem_preorder_of_reaches (Tree.top_mem_preorder _) (hbelow.value hvalue).to_reflTransGen
  rw [← orbsOf_giveContexts] at hread
  cases kind <;> exact hread

/-- Each local orb that is declared has a body. -/
def HasBodies (found : NameMap OrbUse × List LocalOrb) : Prop :=
  ∀ name use, found.1.get? name = some use → use.url.isLocal = true → (LocalOrb.find? found.2 name).isSome = true

theorem isLocal_parse (text : String) : (OrbUrl.parse text).isLocal = false := by
  unfold OrbUrl.parse
  split <;> rfl

private theorem HasBodies.insert {orbs : NameMap OrbUse} {bodies : List LocalOrb} {use : OrbUse}
    (h : HasBodies (orbs, bodies)) (hremote : use.url.isLocal = false) :
    HasBodies (orbs.insert use.name use, bodies) := by
  intro name found hget hlocal
  by_cases hname : name = use.name
  · subst hname
    obtain rfl := Option.some.inj ((NameMap.get?_insert_self orbs _ _).symm.trans hget)
    simp [hremote] at hlocal
  · exact h name found (by rwa [← NameMap.get?_insert_of_ne orbs use hname]) hlocal

private theorem HasBodies.insertLocal {orbs : NameMap OrbUse} {bodies : List LocalOrb} {use : OrbUse} {o : LocalOrb}
    (h : HasBodies (orbs, bodies)) (hname : o.name = use.name) :
    HasBodies (orbs.insert use.name use, LocalOrb.insert bodies o) := by
  intro name found hget hlocal
  rw [LocalOrb.find?_insert]
  split
  · rfl
  · next hne =>
    rw [NameMap.get?_insert_of_ne orbs use fun heq => hne (hname.trans heq.symm)] at hget
    exact h name found hget hlocal

private theorem always_hasBodies_orbs {v : View} {nested : List Char → Except Endless Document} (n : Node) :
    Always HasBodies (orbs v nested n) := by
  have horb (p : Pair) : Always (fun read => ∀ use, (read = some (use, none) → use.url.isLocal = false) ∧
      ∀ o, read = some (use, some o) → o.name = use.name) (orb v nested p) := by
    unfold orb
    split
    · dsimp only
      split
      · refine always_pure fun use => ⟨?_, by simp⟩
        rintro ⟨⟩
        exact isLocal_parse _
      · split
        · exact always_pure (by simp)
        · split
          · exact always_endless
          · refine always_bind fun _ => always_pure fun use => ⟨by simp, ?_⟩
            rintro o ⟨⟩
            rfl
      · exact always_pure (by simp)
    · exact always_pure (by simp)
  refine always_through (fun found p _ hfound => (horb p).bind fun read hread => ?_) (by simp [HasBodies])
  rcases read with _ | ⟨use, _ | o⟩
  · exact always_pure hfound
  · exact always_pure (HasBodies.insert hfound ((hread use).1 rfl))
  · exact always_pure (HasBodies.insertLocal hfound ((hread use).2 o rfl))

/-- A document that is read from a tree has the bodies of the local orbs that it declares. -/
theorem hasBodies_of_ofTreeWith {nested : List Char → Except Endless Document} {kind : DocumentKind} {d : Document}
    (hd : ofTreeWith nested kind t = .ok d) : HasBodies (d.orbs, d.localOrbs) :=
  orbsOf_of_ofTreeWith (I := HasBodies) (by simp [HasBodies]) (fun n _ => always_hasBodies_orbs n) hd

end Read

namespace Document

open Read

variable {g : Grammar} {t : Tree} {kind : DocumentKind} {d : Document} {o : LocalOrb} {depth : Nat}

/-- Each local orb of a document that is read from a tree was cut out of its text and read alone. -/
theorem cutFrom_of_ofTreeWith {nested : List Char → Except Endless Document} (hd : ofTreeWith nested kind t = .ok d)
    (ho : o ∈ d.localOrbs) : CutFrom nested t o :=
  orbsOf_of_ofTreeWith (I := fun found => ∀ o ∈ found.2, CutFrom nested t o) nofun (fun _ hn => always_orbs hn) hd o ho

theorem exists_ofTreeWith_of_mem_localOrbs (hd : ofTreeWith (orbWithin g depth) kind t = .ok d) (ho : o ∈ d.localOrbs) :
    ∃ body ∈ t.root.preorder, o.range = body.range ∧
      ∃ deeper, ofTreeWith (orbWithin g deeper) .orb (g.tree (orbText t.source body)) = .ok o.document := by
  obtain ⟨body, hbody, hrange, hread⟩ := cutFrom_of_ofTreeWith hd ho
  cases depth with
  | zero => cases hread
  | succ deeper => exact ⟨body, hbody, hrange, deeper, hread⟩

/-- A local orb of a document that is read from a tree has a body in the tree, at its place, and in the text that is
read for it each place in the body is at the same row and column. If the body is found alone in the tree that the
grammar gives to this text, what shows there shows in the tree of the document as well, aliases and places included, and
the document of the orb is what reading the body in place gives. -/
theorem localOrb_read_in_place (g : Grammar) (hd : ofTreeWith (orbWithin g (depth + 1)) kind t = .ok d)
    (ho : o ∈ d.localOrbs) : ∃ body ∈ t.root.preorder, o.range = body.range ∧
      orbWithin g (depth + 1) (orbText t.source body) = .ok o.document ∧
      ((Text.slice? t.source body.start.offset body.stop.offset).isSome →
        ∀ offset, body.start.offset ≤ offset → offset ≤ body.stop.offset → ∀ m : Mark,
          m.after (Text.takeBytes offset (orbText t.source body)) = m.after (Text.takeBytes offset t.source)) ∧
      let alone := g.tree (orbText t.source body)
      ∀ {mapping top inner k}, FoundAlone t alone body mapping top inner k →
        Alike (.ofTree t) (.ofTree alone) (FoundAlone.Pairs inner k) ∧
        inPlace t alone (orbWithin g depth) body = .ok o.document := by
  obtain ⟨body, hbody, hrange, hread⟩ := cutFrom_of_ofTreeWith hd ho
  refine ⟨body, hbody, hrange, hread, fun hsome offset hstart hstop m => ?_, fun h => ?_⟩
  · obtain ⟨text, htext⟩ := Option.isSome_iff_exists.mp hsome
    exact after_takeBytes_orbText htext hstart hstop m
  · exact ⟨h.alike, (ofTreeWith_alone h (orbWithin g depth)).symm.trans hread⟩

def firstOrb (t : Tree) : Node :=
  let v := View.ofTree t
  (((v.field? t.top "orbs").bind fun orbs => (v.pairs orbs).head?).bind (·.rawValue)).getD default

def firstAlone (t : Tree) : Tree := Grammar.strict.tree (orbText t.source (firstOrb t))

/-- A local orb whose last block holds flow style, with an anchor and its alias. -/
def flowOrb : Tree := Grammar.strict.tree "orbs:\n  t:\n    commands: {a: &i {steps: []}, b: *i}\n".toList

def flowMapping : Node := ((View.ofTree flowOrb).mapping? (firstOrb flowOrb)).getD default

/-- The mapping in the body of `flowOrb` alone. -/
def flowInner : Node := ((View.ofTree (firstAlone flowOrb)).mapping? (firstAlone flowOrb).top).getD default

private theorem foundAlone_flowOrb :
    FoundAlone flowOrb (firstAlone flowOrb) (firstOrb flowOrb) flowMapping (firstAlone flowOrb).top flowInner 12 := by
  delta flowInner flowMapping flowOrb
  rw [String.toList_ofList]
  constructor <;> decide +kernel

theorem localOrb_read_in_place_of_flow :
    FoundAlone flowOrb (firstAlone flowOrb) (firstOrb flowOrb) flowMapping (firstAlone flowOrb).top flowInner 12 ∧
    ∃ d o, ofTreeWith (orbWithin .strict 1) .config flowOrb = .ok d ∧ o ∈ d.localOrbs ∧
      ∃ body ∈ flowOrb.root.preorder, o.range = body.range ∧
        orbWithin .strict 1 (orbText flowOrb.source body) = .ok o.document ∧
        ((Text.slice? flowOrb.source body.start.offset body.stop.offset).isSome →
          ∀ offset, body.start.offset ≤ offset → offset ≤ body.stop.offset → ∀ m : Mark,
            m.after (Text.takeBytes offset (orbText flowOrb.source body)) =
              m.after (Text.takeBytes offset flowOrb.source)) ∧
        let alone := Grammar.strict.tree (orbText flowOrb.source body)
        ∀ {mapping top inner k}, FoundAlone flowOrb alone body mapping top inner k →
          Alike (.ofTree flowOrb) (.ofTree alone) (FoundAlone.Pairs inner k) ∧
          inPlace flowOrb alone (orbWithin .strict 0) body = .ok o.document := by
  have hsome : ((ofTreeWith (orbWithin .strict 1) .config flowOrb).toOption.bind (·.localOrbs.head?)).isSome := by
    decide +kernel
  obtain ⟨o, ho⟩ := Option.isSome_iff_exists.mp hsome
  obtain ⟨d, hd, ho⟩ := Option.bind_eq_some_iff.mp ho
  have hread := eq_ok_of_toOption hd
  have hmem : o ∈ d.localOrbs := List.mem_of_head? ho
  exact ⟨foundAlone_flowOrb, d, o, hread, hmem, localOrb_read_in_place .strict hread hmem⟩

def blockOrb : Tree := Grammar.strict.tree
  "orbs:\n  tools:\n    commands:\n      greet:\n        steps:\n          - run: echo hi\nversion: 2.1\n".toList

/-- A local orb in which an alias refers to an anchor outside. -/
def aliasOrb : Tree :=
  Grammar.strict.tree "x: &p\n  to:\n    type: string\norbs:\n  t:\n    parameters: *p\n".toList

/-- The commands of a local orb reach beyond the orb, to the end of the text that is read, while in place they end with
it; and the value of an anchor outside the orb is not found. -/
theorem localOrb_differs_in_place :
    ((parseTree .strict .config blockOrb).toOption.bind fun d => d.localOrbs.head?).map
      (fun o => (o.range, o.document.commandsRange)) = some (⟨⟨2, 4⟩, ⟨5, 24⟩⟩, ⟨⟨3, 6⟩, ⟨6, 0⟩⟩) ∧
    (inPlace blockOrb (firstAlone blockOrb) (orbWithin .strict 1) (firstOrb blockOrb)).toOption.map
      (·.commandsRange) = some ⟨⟨3, 6⟩, ⟨5, 24⟩⟩ ∧
    ((parseTree .strict .config aliasOrb).toOption.bind fun d => d.localOrbs.head?).map
      (fun o => o.document.pipelineParameters.keys) = some [] ∧
    (inPlace aliasOrb (firstAlone aliasOrb) (orbWithin .strict 1) (firstOrb aliasOrb)).toOption.map
      (·.pipelineParameters.keys) = some ["to"] := by
  decide +kernel

end Document

end PipelineLint
