import PipelineLint.Proofs.Document.CallSites
import PipelineLint.Proofs.Document.FirstDefinitions
import PipelineLint.Proofs.Yaml.Orderly
import PipelineLint.Document.Lookup

/-! # Owners of parameters

Commands, jobs and executors own the parameters that the references in their bodies mean. Each owner was read from a
pair in a section of its document, and its place is the place of that pair. A lookup at a position finds the parameters
of an owner around the position, in the document or in the local orbs around the position
(`exists_owner_of_parametersAt?`). If a scalar stands there, it is in the body of that owner, unless it is in its name
or in what could not be read, or starts where the owner ends (`includes_of_contains`).
-/

namespace PipelineLint

open Yaml

namespace NameMap

private theorem map_values_modify {α β : Type} {f : α → α} {g : α → β} (h : ∀ a, g (f a) = g a) (m : NameMap α)
    (name : String) :
    (m.modify name f).values.map g = m.values.map g := by
  simp only [values, modify, List.map_map]
  refine List.map_congr_left fun entry _ => ?_
  simp only [Function.comp_apply]
  split <;> simp [h]

end NameMap

inductive OwnerKind where
  | command
  | job
  | executor
  deriving DecidableEq, Repr

def OwnerKind.key : OwnerKind → String
  | .command => "commands"
  | .job => "jobs"
  | .executor => "executors"

/-- An entity as an owner of parameters: its place, the place of its name, and the parameters. -/
structure Owner where
  range : Range
  nameRange : Range
  parameters : Parameters

namespace Owner

def ofCommand (c : Command) : Owner := ⟨c.range, c.nameRange, c.parameters⟩

def ofJob (j : Job) : Owner := ⟨j.range, j.nameRange, j.parameters⟩

def ofExecutor (e : Executor) : Owner := ⟨e.range, e.nameRange, e.parameters⟩

def IsAt (o : Owner) (p : Pair) : Prop := o.range = p.range ∧ ∃ key, p.key = some key ∧ o.nameRange = key.range

structure ReadFrom (v : View) (top : Node) (kind : OwnerKind) (o : Owner) (q p : Pair) : Prop where
  section_eq : v.find? top kind.key = some q
  mem : ∃ value, q.value = some value ∧ p ∈ v.pairs value
  isAt : o.IsAt p

/-- The body of the owner holds a scalar with a place, perhaps over aliases and merges. -/
def Includes (t : Tree) (kind : OwnerKind) (o : Owner) (place : Range) : Prop :=
  ∃ q p body n, o.ReadFrom (.ofTree t) t.top kind q p ∧ p.rawValue = some body ∧ (View.ofTree t).Reaches body n ∧
    n.kind.isScalar ∧ n.range = place

/-- The owner is written in its section and a scalar with a place is written in its body: no alias stands between. -/
def Surrounds (t : Tree) (kind : OwnerKind) (o : Owner) (place : Range) : Prop :=
  ∃ q p written body n, o.ReadFrom (.ofTree t) t.top kind q p ∧ q.rawValue = some written ∧ p.node ∈ written.preorder ∧
    p.rawValue = some body ∧ n ∈ body.preorder ∧ n.kind.isScalar ∧ n.range = place

end Owner

namespace Document

def ownersOf (d : Document) : OwnerKind → List Owner
  | .command => d.commands.values.map .ofCommand
  | .job => d.jobs.values.map .ofJob
  | .executor => d.executors.values.map .ofExecutor

def sectionRange (d : Document) : OwnerKind → Range
  | .command => d.commandsRange
  | .job => d.jobsRange
  | .executor => d.executorsRange

end Document

namespace Read

open Reads

variable {v : View} {top n : Node} {p q : Pair} {tree : Tree} {d : Document}
  {nested : List Char → Except Endless Document}

/-- What a section holds in the end was read from its pairs. -/
theorem Section.always_values {α : Type} {σ : Section α} {P : Pair → α → Prop}
    (h : ∀ p, Always (fun read => ∀ a ∈ read, P p a) (σ.entity p)) (pairs : List Pair) :
    Always (fun m => ∀ a ∈ m.values, ∃ p ∈ pairs, P p a) (through σ.add ∅ pairs) := by
  refine always_through (fun m p hp hm => ?_) (by simp [values_empty])
  refine (h p).bind fun read hread => ?_
  cases read with
  | none => exact always_pure hm
  | some a => exact always_insertFirst hm ⟨p, hp, hread a rfl⟩

private theorem always_commandField_ranges (c : Command) (p : Pair) :
    Always (fun read => read.range = c.range ∧ read.nameRange = c.nameRange) (commandField v c p) := by
  unfold commandField
  repeat' split
  all_goals first
    | exact always_pure ⟨rfl, rfl⟩
    | exact always_bind fun _ => always_pure ⟨rfl, rfl⟩

private theorem always_isAt_commands (n : Node) :
    Always (fun m => ∀ c ∈ m.values, ∃ p ∈ v.pairs n, (Owner.ofCommand c).IsAt p) (commands v n) := by
  rw [commands_eq]
  refine Section.always_values (P := fun p c => (Owner.ofCommand c).IsAt p) (fun p => ?_) _
  have hcommand : Always (fun read => ∀ c ∈ read, (Owner.ofCommand c).IsAt p) (command v p) := by
    unfold command
    split
    · next key mapping hkey _ =>
      refine (always_through (I := fun c : Command => c.range = p.range ∧ c.nameRange = key.range)
        (fun c q _ hc => (always_commandField_ranges c q).mono fun _ h => ⟨h.1.trans hc.1, h.2.trans hc.2⟩)
        ⟨rfl, rfl⟩).bind fun c hc => always_pure ?_
      rintro _ ⟨⟩
      exact ⟨hc.1, key, hkey, hc.2⟩
    · exact always_pure (by simp)
  exact hcommand.bind fun read hread => always_pure fun c hc => hread c (Option.filter_eq_some_iff.mp hc).1

private theorem always_jobField_ranges (j : Job) (p : Pair) :
    Always (fun read => read.range = j.range ∧ read.nameRange = j.nameRange) (jobField v j p) := by
  unfold jobField
  dsimp only
  repeat' split
  all_goals first
    | exact always_pure ⟨rfl, rfl⟩
    | exact always_bind fun _ => always_pure ⟨rfl, rfl⟩

private theorem always_isAt_jobs (n : Node) :
    Always (fun m => ∀ j ∈ m.values, ∃ p ∈ v.pairs n, (Owner.ofJob j).IsAt p) (jobs v n) := by
  rw [jobs_eq]
  refine Section.always_values (P := fun p j => (Owner.ofJob j).IsAt p) (fun p => ?_) _
  change Always (fun read => ∀ j ∈ read, (Owner.ofJob j).IsAt p) (job v p)
  unfold job
  split
  · next key mapping hkey _ =>
    refine (always_through (I := fun j : Job => j.range = p.range ∧ j.nameRange = key.range)
      (fun j q _ hj => (always_jobField_ranges j q).mono fun _ h => ⟨h.1.trans hj.1, h.2.trans hj.2⟩)
      ⟨rfl, rfl⟩).bind fun j hj => ?_
    split
    all_goals
      refine always_pure ?_
      rintro _ ⟨⟩
      exact ⟨hj.1, key, hkey, hj.2⟩
  · exact always_pure (by simp)

private theorem always_isAt_executors (n : Node) :
    Always (fun m => ∀ e ∈ m.values, ∃ p ∈ v.pairs n, (Owner.ofExecutor e).IsAt p) (executors v n) := by
  rw [executors_eq]
  refine Section.always_values (P := fun p e => (Owner.ofExecutor e).IsAt p) (fun p => ?_) _
  change Always (fun read => ∀ e ∈ read, (Owner.ofExecutor e).IsAt p) (namedExecutor v p)
  unfold namedExecutor
  split
  · next key mapping hkey _ =>
    refine always_bind fun body => always_pure ?_
    rintro _ ⟨⟩
    exact ⟨rfl, key, hkey, rfl⟩
  · exact always_pure (by simp)

def SectionRead (v : View) (top : Node) (kind : OwnerKind) (range : Range) (owners : List Owner) : Prop :=
  ∀ o ∈ owners, ∃ q p, o.ReadFrom v top kind q p ∧ range = q.valueOrPairRange

structure OwnersRead (v : View) (top : Node) (tree : Tree) (d : Document) : Prop where
  view_eq : d.view = .ofTree tree
  commands : SectionRead v top .command d.commandsRange (d.commands.values.map .ofCommand)
  jobs : SectionRead v top .job d.jobsRange (d.jobs.values.map .ofJob)
  executors : SectionRead v top .executor d.executorsRange (d.executors.values.map .ofExecutor)

theorem OwnersRead.of_kind (h : OwnersRead v top tree d) :
    (kind : OwnerKind) → SectionRead v top kind (d.sectionRange kind) (d.ownersOf kind)
  | .command => h.commands
  | .job => h.jobs
  | .executor => h.executors

/-- Contexts change no owner. -/
theorem OwnersRead.giveContexts (h : OwnersRead v top tree d) : OwnersRead v top tree (giveContexts d) := by
  refine giveContexts_induction (I := OwnersRead v top tree) (fun name context h => ?_) (fun name context h => ?_) h
  · have hsame := NameMap.map_values_modify (f := fun j : Job => { j with contexts := addContext context j.contexts })
      (g := Owner.ofJob) (fun _ => rfl)
    exact ⟨h.view_eq, h.commands, (hsame _ name).symm ▸ h.jobs, h.executors⟩
  · have hsame := NameMap.map_values_modify
      (f := fun c : Command => { c with contexts := addContext context c.contexts }) (g := Owner.ofCommand) (fun _ => rfl)
    exact ⟨h.view_eq, (hsame _ name).symm ▸ h.commands, h.jobs, h.executors⟩

private theorem sectionRead_of_isAt (kind : OwnerKind) {value : Node} {α : Type} {as : List α} {owner : α → Owner}
    (hq : v.find? top kind.key = some q) (hvalue : q.value = some value)
    (has : ∀ a ∈ as, ∃ p ∈ v.pairs value, (owner a).IsAt p) :
    SectionRead v top kind q.valueOrPairRange (as.map owner) := by
  rintro o ho
  obtain ⟨a, ha, rfl⟩ := List.mem_map.mp ho
  obtain ⟨p, hp, hat⟩ := has a ha
  exact ⟨q, p, ⟨hq, ⟨value, hvalue, hp⟩, hat⟩, rfl⟩

/-- A section without a value has no owners, wherever it is. -/
theorem SectionRead.of_value_eq_none {kind : OwnerKind} {range range' : Range} {owners : List Owner}
    (h : SectionRead v top kind range owners) (hq : v.find? top kind.key = some q) (hvalue : q.value = none) :
    SectionRead v top kind range' owners := by
  intro o ho
  obtain ⟨q', p, hfrom, -⟩ := h o ho
  obtain ⟨value, hsome, -⟩ := hfrom.mem
  obtain rfl := Option.some.inj (hq.symm.trans hfrom.section_eq)
  rw [hvalue] at hsome
  cases hsome

private theorem always_ownersRead_readSection {name : String} (hq : v.find? top name = some q)
    (h : OwnersRead v top tree d) :
    Always (OwnersRead v top tree) (readSection v nested d name q) := by
  unfold readSection
  split
  case h_5 value hvalue =>
    exact (always_isAt_executors value).bind fun executors hexecutors => always_pure
      ⟨h.view_eq, h.commands, h.jobs, sectionRead_of_isAt .executor hq hvalue hexecutors⟩
  case h_6 hvalue =>
    exact always_bind fun _ => always_pure ⟨h.view_eq, h.commands, h.jobs, h.executors.of_value_eq_none hq hvalue⟩
  case h_7 value hvalue =>
    exact (always_isAt_commands value).bind fun commands hcommands => always_pure
      ⟨h.view_eq, sectionRead_of_isAt .command hq hvalue hcommands, h.jobs, h.executors⟩
  case h_8 hvalue =>
    exact always_pure ⟨h.view_eq, h.commands.of_value_eq_none hq hvalue, h.jobs, h.executors⟩
  case h_9 value hvalue =>
    exact (always_isAt_jobs value).bind fun jobs hjobs => always_pure
      ⟨h.view_eq, h.commands, sectionRead_of_isAt .job hq hvalue hjobs, h.executors⟩
  all_goals first
    | exact always_pure ⟨h.view_eq, h.commands, h.jobs, h.executors⟩
    | exact always_bind fun _ => always_pure ⟨h.view_eq, h.commands, h.jobs, h.executors⟩

/-- The owners of a document that is read from a tree are written there. -/
theorem ownersRead_of_ofTreeWith {kind : DocumentKind} (hd : ofTreeWith nested kind tree = .ok d) :
    OwnersRead (.ofTree tree) tree.top tree d := by
  have hbare : OwnersRead (.ofTree tree) tree.top tree { Document.ofTree kind tree with anchors := .ofTree tree } :=
    ⟨rfl, nofun, nofun, nofun⟩
  obtain ⟨read, findings, hread, rfl⟩ := exists_read_of_ofTreeWith hd hbare
    fun _ _ _ hq h => always_ownersRead_readSection hq h
  obtain ⟨hview, hcommands, hjobs, hexecutors⟩ := hread.giveContexts
  cases kind <;> exact ⟨hview, hcommands, hjobs, hexecutors⟩

theorem view_of_ofTreeWith {kind : DocumentKind} (hd : ofTreeWith nested kind tree = .ok d) : d.view = .ofTree tree :=
  (ownersRead_of_ofTreeWith hd).view_eq

theorem tree_of_ofTreeWith {kind : DocumentKind} (hd : ofTreeWith nested kind tree = .ok d) : d.tree = tree :=
  congrArg View.tree (view_of_ofTreeWith hd)

end Read

namespace Document

open Read

/-- The second document is the first one, or one of a local orb around a position in it. -/
inductive Within (p : Position) : Document → Document → Prop where
  | self {d : Document} : Within p d d
  | localOrb {d t : Document} {o : LocalOrb} (mem : o ∈ d.localOrbs) (around : o.range.contains p)
      (inner : Within p o.document t) : Within p d t

/-- A document that was read from its tree, with the bodies of local orbs as a grammar reads them. -/
def IsReadBy (g : Grammar) (d : Document) : Prop :=
  ∃ depth kind, ofTreeWith (orbWithin g depth) kind d.tree = .ok d

theorem isReadBy_of_ofTreeWith {g : Grammar} {depth : Nat} {kind : DocumentKind} {t : Tree} {d : Document}
    (hd : ofTreeWith (orbWithin g depth) kind t = .ok d) : d.IsReadBy g :=
  ⟨depth, kind, (tree_of_ofTreeWith hd).symm ▸ hd⟩

theorem isReadBy_of_parse {g : Grammar} {source : List Char} {d : Document} (hd : parse g source = .ok d) :
    d.IsReadBy g :=
  isReadBy_of_ofTreeWith (t := g.tree source) hd

theorem IsReadBy.within {g : Grammar} {p : Position} {d t : Document} (h : d.IsReadBy g) (ht : Within p d t) :
    t.IsReadBy g := by
  induction ht with
  | self => exact h
  | localOrb mem _ _ ih =>
    obtain ⟨depth, kind, hd⟩ := h
    obtain ⟨body, -, -, deeper, hread⟩ := exists_ofTreeWith_of_mem_localOrbs hd mem
    exact ih (isReadBy_of_ofTreeWith hread)

/-- A document has an owner around a position with these parameters. -/
def HasOwner (p : Position) (parameters : Parameters) (t : Document) : Prop :=
  ∃ kind, ∃ o ∈ t.ownersOf kind, o.range.contains p ∧ o.parameters = parameters

private theorem hasOwner_of_find? (kind : OwnerKind) {α : Type} (owner : α → Owner) {as : List α} {a : α} {p : Position}
    {t : Document} (howners : t.ownersOf kind = as.map owner)
    (hfind : as.find? (fun a => (owner a).range.contains p) = some a) : HasOwner p (owner a).parameters t := by
  have haround := List.find?_some hfind
  exact ⟨kind, owner a, howners ▸ List.mem_map_of_mem (List.mem_of_find?_eq_some hfind), haround, rfl⟩

mutual
/-- The parameters that a lookup finds are those of an owner around the position, in the document or in a local orb
around the position. -/
theorem exists_owner_of_parametersAt? {p : Position} {parameters : Parameters} : (d : Document) →
    parametersAt? p d = some parameters → ∃ t, Within p d t ∧ HasOwner p parameters t
  | ⟨kind, tree, version, versionRange, description, orbs, orbsRange, localOrbs, executors, executorsRange, commands,
      commandsRange, jobs, jobsRange, workflows, workflowsRange, pipelineParameters, pipelineParametersRange, anchors,
      suppression, diagnostics⟩, h => by
    rw [parametersAt?] at h
    split at h
    · next c _ hcommand =>
      obtain rfl := Option.some.inj h
      exact ⟨_, .self, hasOwner_of_find? .command .ofCommand rfl
        (Option.ite_none_right_eq_some.mp hcommand).2⟩
    · next j _ hjob =>
      obtain rfl := Option.some.inj h
      exact ⟨_, .self, hasOwner_of_find? .job .ofJob rfl (Option.ite_none_right_eq_some.mp hjob).2⟩
    · split at h
      · obtain ⟨o, ho, haround, t, ht, howner⟩ := exists_owner_of_localParametersAt? localOrbs h
        exact ⟨t, .localOrb ho haround ht, howner⟩
      · obtain ⟨-, h⟩ := Option.ite_none_right_eq_some.mp h
        obtain ⟨e, he, rfl⟩ := Option.map_eq_some_iff.mp h
        exact ⟨_, .self, hasOwner_of_find? .executor .ofExecutor rfl he⟩
theorem exists_owner_of_localParametersAt? {p : Position} {parameters : Parameters} : (orbs : List LocalOrb) →
    localParametersAt? p orbs = some parameters →
    ∃ o ∈ orbs, o.range.contains p ∧ ∃ t, Within p o.document t ∧ HasOwner p parameters t
  | [], h => nomatch h
  | ⟨name, range, document⟩ :: orbs, h => by
    rw [localParametersAt?] at h
    split at h
    · next haround => exact ⟨_, List.mem_cons_self, haround, exists_owner_of_parametersAt? document h⟩
    · obtain ⟨o, ho, hinner⟩ := exists_owner_of_localParametersAt? orbs h
      exact ⟨o, List.mem_cons_of_mem _ ho, hinner⟩
end

/-- A lookup finds something where a command or a job is around the position in its section, and where an executor is
and the orbs are not around it. -/
theorem parametersAt?_ne_none {p : Position} {d : Document} {kind : OwnerKind} {o : Owner} (ho : o ∈ d.ownersOf kind)
    (haround : o.range.contains p) (hsection : (d.sectionRange kind).contains p)
    (horbs : kind = .executor → d.orbsRange.contains p = false) : parametersAt? p d ≠ none := by
  obtain ⟨_, _, _, _, _, _, orbsRange, _, executors, executorsRange, commands, commandsRange, jobs, jobsRange⟩ := d
  have hfound {α : Type} {as : List α} {range : α → Range} (owner : α → Owner) (howner : ∀ a, (owner a).range = range a)
      (ho : o ∈ as.map owner) : as.find? (fun a => (range a).contains p) ≠ none := by
    obtain ⟨a, ha, rfl⟩ := List.mem_map.mp ho
    intro hnone
    have hnot := List.find?_eq_none.mp hnone a ha
    rw [← howner a] at hnot
    exact hnot haround
  intro hnone
  rw [parametersAt?] at hnone
  split at hnone
  · cases hnone
  · cases hnone
  · next hcommand hjob =>
    cases kind with
    | command =>
      have hsection : commandsRange.contains p = true := hsection
      rw [if_pos hsection] at hcommand
      exact hfound .ofCommand (fun _ => rfl) ho hcommand
    | job =>
      have hsection : jobsRange.contains p = true := hsection
      rw [if_pos hsection] at hjob
      exact hfound .ofJob (fun _ => rfl) ho hjob
    | executor =>
      have horbs : orbsRange.contains p = false := horbs rfl
      have hsection : executorsRange.contains p = true := hsection
      rw [if_neg (by simp [horbs]), if_pos hsection, Option.map_eq_none_iff] at hnone
      exact hfound .ofExecutor (fun _ => rfl) ho hnone

end Document

def Yaml.Tree.ShowsScalar (t : Tree) (place : Range) : Prop := ∃ n ∈ t.root.preorder, n.kind.isScalar ∧ n.range = place

/-- The scalar with a place stands in a part of the text that could not be read. -/
def Yaml.Tree.IsUnread (t : Tree) (place : Range) : Prop :=
  ∃ e ∈ t.root.preorder, e.kind = .error ∧ ∃ n ∈ e.preorder, n.kind.isScalar ∧ n.range = place

namespace Owner

open Read Document

variable {t : Document} {kind : OwnerKind} {o : Owner} {n : Node} {p : Position}

/-- The pair that an owner was read from and that of its section are below the top of the tree. -/
theorem ReadFrom.below {t : Tree} {q p : Pair} (h : o.ReadFrom (.ofTree t) t.top kind q p) :
    (View.ofTree t).PairBelow t.top q ∧ (View.ofTree t).PairBelow t.top p := by
  obtain ⟨value, hvalue, hp⟩ := h.mem
  have hq := View.below_of_mem_pairs (List.mem_of_find?_eq_some h.section_eq)
  exact ⟨hq, (View.below_of_mem_pairs hp).above (hq.value hvalue).to_reflTransGen⟩

theorem mem_preorder_of_pairBelow {t : Tree} {p : Pair} (h : (View.ofTree t).PairBelow t.top p) :
    p.node ∈ t.root.preorder :=
  View.mem_preorder_of_reaches (Tree.top_mem_preorder t) h.node.to_reflTransGen

/-- An owner around a scalar includes it, unless the scalar is in its name, or in a part of the owner that could not be
read, or the owner ends there. -/
theorem includes_of_contains (ht : OwnersRead (.ofTree t.tree) t.tree.top t.tree t) (horderly : t.tree.IsOrderly)
    (ho : o ∈ t.ownersOf kind) (haround : o.range.contains p) (hn : n ∈ t.tree.root.preorder) (hscalar : n.kind.isScalar)
    (hstart : n.start.position ≤ p) (hstop : p < n.stop.position) :
    o.Includes t.tree kind n.range ∨ o.nameRange.containsRange n.range ∨ t.tree.IsUnread n.range ∨ o.range.stop = p := by
  obtain ⟨q, pair, hfrom, -⟩ := ht.of_kind kind o ho
  have hbelow := hfrom.below.2
  have hmem := mem_preorder_of_pairBelow hbelow
  obtain ⟨hpair, hkey, hvalue⟩ := View.fields_of_pair? hbelow.eq
  obtain ⟨hrange, key', hkey', hname⟩ := hfrom.isAt
  rw [hrange] at haround ⊢
  rcases horderly.pair_around hmem hpair hn hscalar haround hstart hstop with
    ⟨key, hsome, hin⟩ | ⟨value, hsome, hin⟩ | ⟨c, hc, herror, hin⟩ | hend
  · obtain rfl : key = key' := Option.some.inj (hsome.symm.trans (hkey.trans hkey'))
    have hkeyMem := Node.child_mem_preorder (List.mem_of_find?_eq_some hsome) _ hmem
    exact .inr (.inl (hname ▸ horderly.containsRange_of_mem hkeyMem hin))
  · exact .inl ⟨q, pair, value, n, hfrom, hvalue ▸ hsome, View.reaches_of_mem_preorder value hin, hscalar, rfl⟩
  · exact .inr (.inr (.inl ⟨c, Node.child_mem_preorder hc _ hmem, herror, n, hin, hscalar, rfl⟩))
  · exact .inr (.inr (.inr hend))

/-- An owner that surrounds a scalar is around each position in it, and so is its section. -/
theorem contains_of_surrounds {place : Range} (ht : OwnersRead (.ofTree t.tree) t.tree.top t.tree t)
    (horderly : t.tree.IsOrderly) (ho : o ∈ t.ownersOf kind) (h : o.Surrounds t.tree kind place) (hp : place.contains p) :
    o.range.contains p ∧ (t.sectionRange kind).contains p := by
  obtain ⟨q, pair, written, body, n, hfrom, hwritten, hinside, hbody, hn, -, rfl⟩ := h
  obtain ⟨q', _, hfrom', hsection⟩ := ht.of_kind kind o ho
  obtain rfl := Option.some.inj (hfrom.section_eq.symm.trans hfrom'.section_eq)
  obtain ⟨hqBelow, hbelow⟩ := hfrom.below
  have haround : pair.range.contains p := by
    obtain ⟨-, -, hvalue⟩ := View.fields_of_pair? hbelow.eq
    have hbodyMem : body ∈ pair.node.preorder :=
      Node.child_mem_preorder (List.mem_of_find?_eq_some (hvalue.trans hbody)) _ pair.node.self_mem_preorder
    have hscalar := (Node.preorder_sublist _ hbodyMem).subset hn
    exact Range.contains_of_containsRange (horderly.containsRange_of_mem (mem_preorder_of_pairBelow hbelow) hscalar) hp
  have hwrittenMem : written ∈ t.tree.root.preorder := by
    obtain ⟨-, -, hvalue⟩ := View.fields_of_pair? hqBelow.eq
    exact Node.child_mem_preorder (List.mem_of_find?_eq_some (hvalue.trans hwritten)) _ (mem_preorder_of_pairBelow hqBelow)
  refine ⟨hfrom.isAt.1 ▸ haround, ?_⟩
  rw [hsection, Pair.valueOrPairRange, Pair.valueRange?, hwritten, Option.map_some, Option.getD_some]
  exact Range.contains_of_containsRange (horderly.containsRange_of_mem hwrittenMem hinside) haround

end Owner

end PipelineLint
