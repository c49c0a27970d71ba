import PipelineLint.Concrete.Grammar.Stream
import PipelineLint.Concrete.Loader.Decode
import PipelineLint.Proofs.Document.LocalOrb
import PipelineLint.Proofs.Document.RestyledEntities

/-! # Documents in another style

Configurations that write the same values in block style and in brackets are read as documents with the same entities.
The style of some values counts all the same, and there it has to be kept: that of a mapping in a list that is given to
a parameter, of an orb, of a step that is no mapping, and of a pair without braces in a sequence. In each of these
places there are configurations that hold the same data and are read as different documents.
-/

namespace PipelineLint

open List (Forall₂)
open Yaml Yaml.View Reads

namespace Read

private theorem entities_giveContext (d : Document) (jobName context : String) :
    (giveContext d jobName context).entities = giveContext d.entities jobName context := by
  have hcommands (d : Document) : d.entities.commands = d.commands.map Command.unplaced := by rw [Document.entities_eq]
  have hjobs (d : Document) : d.entities.jobs = d.jobs.map Job.unplaced := by rw [Document.entities_eq]
  have hgiveJob (m : NameMap Job) (name : String) :
      (m.modify name fun j => { j with contexts := addContext context j.contexts }).map Job.unplaced =
        (m.map Job.unplaced).modify name fun j => { j with contexts := addContext context j.contexts } := by
    refine NameMap.map_modify _ _ ?_ name
    exact fun _ => rfl
  have hgiveCommand (m : NameMap Command) (name : String) :
      (m.modify name fun c => { c with contexts := addContext context c.contexts }).map Command.unplaced =
        (m.map Command.unplaced).modify name fun c => { c with contexts := addContext context c.contexts } := by
    refine NameMap.map_modify _ _ ?_ name
    exact fun _ => rfl
  rw [giveContext, giveContext, hjobs, NameMap.get?_map]
  cases d.jobs.get? jobName with
  | none => rfl
  | some job =>
    have hnames : job.unplaced.steps.map Step.name = job.steps.map Step.name := by
      simp only [Job.unplaced, List.map_map]
      exact List.map_congr_left fun s _ => s.name_unplaced
    simp only [Option.map_some, hnames]
    rw [← List.foldl_hom Document.entities]
    · congr 1
      simp only [Document.entities_eq, hgiveJob]
    · intro d name
      simp only [hcommands, hjobs, NameMap.contains_map]
      split
      · simp only [Document.entities_eq, hgiveCommand]
      · simp only [Document.entities_eq, hgiveJob]

private theorem entities_giveContexts (d : Document) : (giveContexts d).entities = giveContexts d.entities := by
  have hworkflows : d.entities.workflows = d.workflows.map Workflow.unplaced := by rw [Document.entities_eq]
  rw [giveContexts, giveContexts, hworkflows, NameMap.values_map]
  have hgiven (w : Workflow) :
      (w.unplaced.jobs.flatMap fun use => use.contexts.map fun context => (use.jobName, context.text)) =
        w.jobs.flatMap fun use => use.contexts.map fun context => (use.jobName, context.text) := by
    simp only [Workflow.unplaced, JobUse.unplaced, List.flatMap_map, List.map_map]
    rfl
  rw [List.flatMap_map]
  simp only [hgiven]
  exact (List.foldl_hom Document.entities fun d given => (entities_giveContext d given.1 given.2).symm).symm

variable {v w : View} {N : Node → Node → Prop} {R : Site → Node → Node → Prop} {n m : Node} {p q : Pair}
  {nested nested' : List Char → Except Endless Document}

section

variable (h : Restyled v w N R)
  (hnested : ∀ {n m}, N n m → (nested (orbText v.tree.source n)).map Document.entities =
    (nested' (orbText w.tree.source m)).map Document.entities)
include h hnested

private theorem orb_restyled (hkey : Option.Rel (R .text) p.key q.key)
    (hvalue : Option.Rel (R .orb) p.rawValue q.rawValue) :
    shown (Option.map fun found => (found.1.unplaced, found.2.map LocalOrb.entities)) (orb v nested p) =
      shown (Option.map fun found => (found.1.unplaced, found.2.map LocalOrb.entities)) (orb w nested' q) := by
  unfold orb
  obtain ⟨hp, hq⟩ | ⟨key, key', hp, hq, hkey⟩ := rel_cases hkey
  · rw [hp, hq]
  obtain ⟨hpr, hqr⟩ | ⟨a, b, hpr, hqr, hab⟩ := rel_cases hvalue
  · rw [hp, hq, hpr, hqr]
  obtain ⟨hkind, hflow, hblock⟩ := (h.shows hab).orb rfl
  simp only [hp, hq, hpr, hqr, ← hkind, h.text hkey]
  split
  · rename_i hkind
    simp only [shown_pure, Option.map_some, OrbUse.unplaced, h.text (hflow hkind), Option.map_none]
  · rename_i hkind
    rw [← Option.not_isSome, ← Option.not_isSome, ← isSome_eq_of_rel (h.mapping? hab)]
    split
    · rfl
    · rename_i hmapping
      have hdocument := hnested (hblock hkind (by simpa [Option.isSome_iff_ne_none] using hmapping))
      cases hv : nested (orbText v.tree.source a) with
      | error e =>
        cases hw : nested' (orbText w.tree.source b) with
        | error e' => rfl
        | ok d' => simp [hv, hw, Except.map] at hdocument
      | ok d =>
        cases hw : nested' (orbText w.tree.source b) with
        | error e' => simp [hv, hw, Except.map] at hdocument
        | ok d' =>
          have hd : d.entities = d'.entities := by simpa [hv, hw, Except.map] using hdocument
          simp only [shown_notes_bind, shown_pure, Option.map_some, OrbUse.unplaced, LocalOrb.entities_eq, hd]
  · rfl

private theorem orbs_restyled (hnm : R (.each .orb) n m) :
    shown (fun found => (found.1.map OrbUse.unplaced, found.2.map LocalOrb.entities)) (orbs v nested n) =
      shown (fun found => (found.1.map OrbUse.unplaced, found.2.map LocalOrb.entities)) (orbs w nested' m) := by
  refine shown_through (h.pairs hnm) (fun found found' p q hfound hpq => ?_) rfl
  obtain ⟨hnames, horbs⟩ := Prod.mk.inj hfound
  refine shown_bind (orb_restyled h hnested hpq.key hpq.rawValue) fun x y hxy => ?_
  obtain ⟨rfl, rfl⟩ | ⟨⟨use, o⟩, ⟨use', o'⟩, rfl, rfl, ho⟩ := option_cases hxy
  · exact congrArg Except.ok hfound
  obtain ⟨huse, ho⟩ := Prod.mk.inj ho
  dsimp only at huse ho
  have hname : use.name = use'.name := by rw [← OrbUse.name_unplaced, huse, OrbUse.name_unplaced]
  have hinsert : (found.1.insert use.name use).map OrbUse.unplaced =
      (found'.1.insert use'.name use').map OrbUse.unplaced := by
    rw [NameMap.map_insert, NameMap.map_insert, hnames, huse, hname]
  obtain ⟨rfl, rfl⟩ | ⟨inner, inner', rfl, rfl, hinner⟩ := option_cases ho
  · exact congrArg Except.ok (Prod.ext hinsert horbs)
  · refine congrArg Except.ok (Prod.ext hinsert ?_)
    dsimp only
    rw [LocalOrb.map_insert, LocalOrb.map_insert, horbs, hinner]

private theorem readSection_restyled {d d' : Document} (hd : d.SameEntities d') {name : String}
    (hname : name ∈ sectionOrder)
    (hvalue : Option.Rel (R (Site.documentField name)) p.value q.value) :
    shown Document.entities (readSection v nested d name p) =
      shown Document.entities (readSection w nested' d' name q) := by
  have hpure {d d' : Document} (hd : d.SameEntities d') :
      shown Document.entities (pure d) = shown Document.entities (pure d') :=
    congrArg Except.ok (Document.entities_eq_iff.mpr hd)
  simp only [sectionOrder, List.mem_cons, List.not_mem_nil, or_false] at hname
  obtain ⟨hp, hq⟩ | ⟨a, b, hp, hq, hab⟩ := rel_cases hvalue
  · simp only [readSection, emptySection, hp, hq]
    rcases hname with rfl | rfl | rfl | rfl | rfl | rfl | rfl | rfl
    · exact hpure { hd with }
    · exact hpure { hd with description := rfl }
    · simp only [shown_note_bind]
      exact hpure { hd with }
    · simp only [shown_note_bind]
      exact hpure { hd with }
    · exact hpure { hd with }
    · exact hpure hd
    · simp only [shown_note_bind]
      exact hpure { hd with }
    · exact hpure hd
  · simp only [readSection, hp, hq]
    rcases hname with rfl | rfl | rfl | rfl | rfl | rfl | rfl | rfl
    · exact hpure { hd with
        version := congrArg (fun cs => (Text.Double.ofText? cs).getD ⟨0, false⟩) (h.characters hab) }
    · exact hpure { hd with description := congrArg some (h.text hab) }
    · refine shown_bind (orbs_restyled h hnested hab) fun x y hxy => hpure ?_
      exact { hd with orbs := congrArg Prod.fst hxy, localOrbs := congrArg Prod.snd hxy }
    · exact shown_bind (executors_restyled h hab) fun x y hxy => hpure { hd with executors := hxy }
    · exact shown_bind (commands_restyled h hab) fun x y hxy => hpure { hd with commands := hxy }
    · exact shown_bind (jobs_restyled h hab) fun x y hxy => hpure { hd with jobs := hxy }
    · exact shown_bind (parameters_restyled h hab) fun x y hxy => hpure { hd with pipelineParameters := hxy }
    · refine shown_bind ?_ fun x y hxy => hpure { hd with workflows := hxy }
      rw [hd.version]
      exact workflows_restyled h _ hab

private theorem readEntities_restyled {d d' : Document} (hd : d.entities = d'.entities) (hnm : R .document n m) :
    shown Document.entities (readEntities v nested d n) = shown Document.entities (readEntities w nested' d' m) := by
  rw [readEntities, readEntities]
  refine shown_bind (f := Document.entities) ?_ fun d d' hd => ?_
  · refine shown_through (r := fun name name' => name = name' ∧ name ∈ sectionOrder) ?_ ?_ hd
    · exact List.forall₂_same.mpr fun name hname => ⟨rfl, hname⟩
    · rintro d d' name _ hd ⟨rfl, hname⟩
      have hfind := h.find? hnm name
      rw [find?, find?] at hfind
      obtain ⟨hp, hq⟩ | ⟨p, q, hp, hq, hpq, hkey⟩ := rel_cases hfind
      · rw [hp, hq]
        exact congrArg Except.ok hd
      · rw [hp, hq]
        exact readSection_restyled h hnested (Document.entities_eq_iff.mp hd) hname (hkey ▸ hpq.value)
  · rw [shown_pure, shown_pure, entities_giveContexts, entities_giveContexts, hd]

end

private theorem map_entities_ofTreeWith (nested : List Char → Except Endless Document) (kind : DocumentKind)
    (tree : Tree) :
    (ofTreeWith nested kind tree).map Document.entities = shown Document.entities (contents nested kind tree) := by
  rw [ofTreeWith]
  cases contents nested kind tree with
  | error e => rfl
  | ok read =>
    obtain ⟨d, findings⟩ := read
    refine congrArg Except.ok (Document.entities_eq_iff.mpr ?_)
    cases kind <;> exact ⟨rfl, rfl, rfl, rfl, rfl, rfl, rfl, rfl, rfl, rfl⟩

/-- Trees that show the same in different styles are read as documents with the same entities. -/
theorem ofTreeWith_restyled {s t : Tree} (h : Restyled (.ofTree s) (.ofTree t) N R)
    (htop : Option.Rel (R .document) s.top? t.top?)
    (hnested : ∀ {n m}, N n m → (nested (orbText s.source n)).map Document.entities =
      (nested' (orbText t.source m)).map Document.entities) (kind : DocumentKind) :
    (ofTreeWith nested kind s).map Document.entities = (ofTreeWith nested' kind t).map Document.entities := by
  rw [map_entities_ofTreeWith, map_entities_ofTreeWith, contents, contents]
  have hbare : ({ Document.ofTree kind s with anchors := .ofTree s } : Document).entities =
      ({ Document.ofTree kind t with anchors := .ofTree t } : Document).entities := by
    rw [Document.entities_eq, Document.entities_eq]
    rfl
  obtain ⟨hs, ht⟩ | ⟨n, m, hs, ht, hnm⟩ := rel_cases htop
  · rw [hs, ht]
    exact congrArg Except.ok hbare
  · rw [hs, ht]
    exact readEntities_restyled h hnested hbare hnm

end Read

namespace Document

open Read

section

variable (g g' : Grammar)

/-- Two trees write the same values in different styles, and so do those that two grammars give to the bodies of their
local orbs, which lie less than `depth` orbs deep in each other. -/
def RestyledTrees : Nat → Tree → Tree → Prop
  | 0, _, _ => False
  | depth + 1, s, t => ∃ R,
    Restyled (.ofTree s) (.ofTree t)
      (fun n m => RestyledTrees depth (g.tree (orbText s.source n)) (g'.tree (orbText t.source m))) R ∧
      Option.Rel (R .document) s.top? t.top?

/-- Two trees write the same values in different styles, as far as a number of steps down or over an alias tells. -/
def RestyledTreesWithin (steps : Nat) : Nat → Tree → Tree → Prop
  | 0, _, _ => False
  | depth + 1, s, t => Option.Rel
    (RestyledWithin (.ofTree s) (.ofTree t)
      (fun n m => RestyledTreesWithin steps depth (g.tree (orbText s.source n)) (g'.tree (orbText t.source m))) steps
      .document) s.top? t.top?

instance decidableRestyledTreesWithin (steps : Nat) : (depth : Nat) → (s t : Tree) →
    Decidable (RestyledTreesWithin g g' steps depth s t)
  | 0, _, _ => inferInstanceAs (Decidable False)
  | depth + 1, s, t =>
    have : DecidableRel fun n m =>
        RestyledTreesWithin g g' steps depth (g.tree (orbText s.source n)) (g'.tree (orbText t.source m)) :=
      fun n m => decidableRestyledTreesWithin steps depth (g.tree (orbText s.source n)) (g'.tree (orbText t.source m))
    inferInstanceAs (Decidable (Option.Rel _ _ _))

end

variable {g g' : Grammar} {s t : Tree}

private theorem restyledTrees_of_within {steps depth : Nat} (h : RestyledTreesWithin g g' steps depth s t) :
    RestyledTrees g g' depth s t := by
  induction depth generalizing s t with
  | zero => exact h
  | succ depth ih => exact ⟨_, restyled_of_within fun _ _ => ih, rel_mono (fun _ _ h => ⟨steps, h⟩) h⟩

/-- Trees that write the same values in different styles are read as documents with the same entities, or neither is
read. Orbs in orbs are compared no deeper than they are read. -/
theorem parse_restyled {depth deep deep' : Nat} (h : RestyledTrees g g' (depth + 1) s t) (hs : depth ≤ deep)
    (ht : depth ≤ deep') (kind : DocumentKind) :
    (ofTreeWith (orbWithin g deep) kind s).map entities = (ofTreeWith (orbWithin g' deep') kind t).map entities := by
  induction depth generalizing s t deep deep' kind with
  | zero =>
    obtain ⟨R, h, htop⟩ := h
    exact ofTreeWith_restyled h htop False.elim kind
  | succ depth ih =>
    obtain ⟨R, h, htop⟩ := h
    obtain ⟨deep, rfl⟩ := Nat.exists_eq_add_of_le' hs
    obtain ⟨deep', rfl⟩ := Nat.exists_eq_add_of_le' ht
    refine ofTreeWith_restyled h htop (fun hnm => ?_) kind
    exact ih hnm (Nat.le_add_left _ _) (Nat.le_add_left _ _) .orb

/-- A configuration with a local orb, in block style. -/
def toolsInBlocks : Tree := Grammar.strict.tree
  ("orbs:\n  tools:\n    commands:\n      greet:\n        steps:\n          - run: make\n" ++
    "jobs:\n  build:\n    steps:\n      - tools/greet\n").toList

/-- The configuration of `toolsInBlocks` with brackets in the orb and in the jobs. -/
def toolsInBrackets : Tree := Grammar.strict.tree
  ("orbs:\n  tools:\n    commands: {greet: {steps: [{run: make}]}}\n" ++
    "jobs: {build: {steps: [tools/greet]}}\n").toList

theorem parse_restyled_of_tools : RestyledTrees .strict .strict 2 toolsInBlocks toolsInBrackets ∧
    (ofTreeWith (orbWithin .strict 1) .config toolsInBlocks).map entities =
      (ofTreeWith (orbWithin .strict 1) .config toolsInBrackets).map entities := by
  have hwithin : RestyledTreesWithin .strict .strict 20 2 toolsInBlocks toolsInBrackets := by decide +kernel
  have htrees := restyledTrees_of_within hwithin
  exact ⟨htrees, parse_restyled htrees (Nat.le_refl 1) (Nat.le_refl 1) .config⟩

def dataText? (s : List Char) : Option String := (Load.Loader.standard.decode s).toOption.map Data.compact

/-- Steps given to a parameter, in block style. -/
def givenInBlocks : List Char :=
  "jobs:\n  build:\n    steps:\n      - node/install:\n          before:\n            - run: make\n".toList

def givenInBrackets : List Char :=
  "jobs:\n  build:\n    steps:\n      - node/install:\n          before: [{run: make}]\n".toList

def orbInBlocks : List Char := "orbs:\n  tools:\n    commands:\n      greet:\n        steps: []\n".toList

def orbInBrackets : List Char := "orbs:\n  tools: {commands: {greet: {steps: []}}}\n".toList

def stepInBraces : List Char := "jobs:\n  build:\n    steps: [checkout, {run: make}]\n".toList

def stepWithoutBraces : List Char := "jobs:\n  build:\n    steps: [checkout, run: make]\n".toList

/-- The names of the steps of the jobs and of the steps inside them. -/
def walkedNames (d : Document) : List String :=
  d.jobs.values.flatMap fun job => (job.steps.flatMap Step.walk).map Step.name

def orbNames (d : Document) : List String := d.localOrbs.map (·.name)

/-- The commands that the steps of the jobs run. -/
def commandTexts (d : Document) : List String :=
  d.jobs.values.flatMap fun job => job.steps.flatMap fun step =>
    match step with
    | .run r => [r.command]
    | _ => []

/-- Documents with different parts of their entities have different entities. -/
theorem entities_ne {α : Type} {s t : List Char} (f : Document → α)
    (h : ((parse .strict s).map entities).toOption.map f ≠ ((parse .strict t).map entities).toOption.map f) :
    (parse .strict s).map entities ≠ (parse .strict t).map entities :=
  mt (congrArg fun d => d.toOption.map f) h

private theorem given_told_apart :
    (parse .strict givenInBlocks).map entities ≠ (parse .strict givenInBrackets).map entities :=
  entities_ne walkedNames (by
    delta givenInBlocks givenInBrackets
    rw [String.toList_ofList, String.toList_ofList]
    decide +kernel)

private theorem orb_told_apart :
    (parse .strict orbInBlocks).map entities ≠ (parse .strict orbInBrackets).map entities :=
  entities_ne orbNames (by
    delta orbInBlocks orbInBrackets
    rw [String.toList_ofList, String.toList_ofList]
    decide +kernel)

private theorem step_told_apart :
    (parse .strict stepInBraces).map entities ≠ (parse .strict stepWithoutBraces).map entities :=
  entities_ne commandTexts (by
    delta stepInBraces stepWithoutBraces
    rw [String.toList_ofList, String.toList_ofList]
    decide +kernel)

/-- Texts that hold the same data in different styles are read differently: steps that are given in brackets are lost,
an orb in brackets is no local orb, and a step without braces has no command. -/
theorem styles_told_apart :
    ((dataText? givenInBlocks).isSome ∧ dataText? givenInBlocks = dataText? givenInBrackets ∧
      (parse .strict givenInBlocks).map entities ≠ (parse .strict givenInBrackets).map entities) ∧
    ((dataText? orbInBlocks).isSome ∧ dataText? orbInBlocks = dataText? orbInBrackets ∧
      (parse .strict orbInBlocks).map entities ≠ (parse .strict orbInBrackets).map entities) ∧
    ((dataText? stepInBraces).isSome ∧ dataText? stepInBraces = dataText? stepWithoutBraces ∧
      (parse .strict stepInBraces).map entities ≠ (parse .strict stepWithoutBraces).map entities) := by
  have hgiven : (dataText? givenInBlocks).isSome ∧ dataText? givenInBlocks = dataText? givenInBrackets := by
    decide +kernel
  have horb : (dataText? orbInBlocks).isSome ∧ dataText? orbInBlocks = dataText? orbInBrackets := by decide +kernel
  have hstep : (dataText? stepInBraces).isSome ∧ dataText? stepInBraces = dataText? stepWithoutBraces := by
    decide +kernel
  exact ⟨⟨hgiven.1, hgiven.2, given_told_apart⟩, ⟨horb.1, horb.2, orb_told_apart⟩, ⟨hstep.1, hstep.2, step_told_apart⟩⟩

end Document

end PipelineLint
