import PipelineLint.Concrete.Grammar.Stream
import PipelineLint.Proofs.Check.Codes
import PipelineLint.Proofs.Document.Owners
import PipelineLint.Proofs.Reference
import PipelineLint.Proofs.Yaml.Lies
import PipelineLint.Proofs.Yaml.Orderly
import Mathlib.Data.List.Nodup

/-! # References without a declaration

A check of references goes over the scalars of the first document of a text, and over the references in each of them.
It reports just those whose parameter is not declared, each once and in the order of the text, and the place that it
gives is where the reference is written (`references_exact`). Where the first document has no value, the check goes over
the whole tree instead, and finds references in documents that no pipeline is read from (`reference_of_later_document`).

Over aliases and merges the scalars of a text can be in the bodies of several owners of parameters, and outside of the
places of all of them. What an enclosing parameter is declared by is looked up by place, though. So a reference that all
owners of its scalar declare is reported where no owner is written around it, and is left alone where one is
(`references_in_bodies`). The first case happens in plain configurations: steps that stand on their own under an anchor,
and a command that takes them over by an alias (`sharedSteps_reported`).
-/

namespace PipelineLint

open Yaml Text

namespace Check

structure Mention where
  scalar : Node
  reference : Reference

namespace Mention

variable (m : Mention)

/-- The offset of the first character. -/
def start : Nat := m.scalar.start.offset + m.reference.start

/-- The offset after the last character. -/
def stop : Nat := m.scalar.start.offset + m.reference.stop

def range (source : List Char) : Range := ⟨positionAt m.start source, positionAt m.stop source⟩

/-- What is mentioned is declared: among the pipeline parameters, or where the reference starts. -/
def isDeclared (s : Scope) : Bool :=
  match m.reference.scope with
  | .pipeline => s.pipelineParameters.contains m.reference.name
  | .enclosing => (Document.parametersAt? (m.range s.document.source).start s.document).any (·.contains m.reference.name)

def undefined (source : List Char) : Diagnostic :=
  .error .undefinedParameter (m.range source) (match m.reference.scope with
    | .pipeline => "Pipeline parameter " ++ m.reference.name ++ " is not defined"
    | .enclosing => "Parameter " ++ m.reference.name ++ " is not defined")

/-- The mention stands in a scalar of the first document of a tree, or of the whole tree where that document has no
value, and is spelled there as `whole`. -/
structure StandsIn (t : Tree) (whole : List Char) : Prop where
  scalar_mem : m.scalar ∈ t.top.preorder
  isScalar : m.scalar.kind.isScalar
  occurs : m.reference.Occurs (t.textOf m.scalar) whole

end Mention

/-- The mentions in the scalars below the top of a tree. -/
def mentions (t : Tree) : List Mention :=
  (t.top.preorder.filter (·.kind.isScalar)).flatMap fun scalar =>
    (Reference.findAll (t.textOf scalar)).map fun r => ⟨scalar, r⟩

variable {source whole : List Char} {t : Tree} {m m' : Mention} {s : Scope}

theorem mem_mentions_iff : m ∈ mentions t ↔ ∃ whole, m.StandsIn t whole := by
  simp only [mentions, List.mem_flatMap, List.mem_map, List.mem_filter]
  constructor
  · rintro ⟨scalar, ⟨hscalar, hkind⟩, r, hr, rfl⟩
    obtain ⟨whole, hoccurs⟩ := Reference.mem_findAll_iff.mp hr
    exact ⟨whole, hscalar, hkind, hoccurs⟩
  · rintro ⟨whole, hscalar, hkind, hoccurs⟩
    exact ⟨m.scalar, ⟨hscalar, hkind⟩, m.reference, Reference.mem_findAll_iff.mpr ⟨whole, hoccurs⟩, rfl⟩

theorem undefinedReference_eq (s : Scope) (m : Mention) :
    undefinedReference s m.reference (m.range s.document.source) =
      if m.isDeclared s then [] else [m.undefined s.document.source] := by
  rw [undefinedReference, Mention.isDeclared, Mention.undefined]
  cases m.reference.scope <;> rfl

/-- A check of references reports the mentions that are not declared. -/
theorem references_eq (s : Scope) : references s =
    ((mentions s.document.tree).filter fun m => !m.isDeclared s).map fun m => .finding (m.undefined s.document.source) := by
  have hbelow : referencesBelow s.document s.document.tree.top =
      (mentions s.document.tree).map fun m => (m.reference, m.range s.document.source) := by
    rw [referencesBelow, mentions, List.map_flatMap]
    simp only [List.map_map]
    rfl
  rw [references, hbelow, List.flatMap_map]
  induction mentions s.document.tree with
  | nil => rfl
  | cons m ms ih =>
    rw [List.flatMap_cons, ih]
    dsimp only
    rw [undefinedReference_eq, List.filter_cons]
    cases m.isDeclared s <;> rfl

theorem Mention.range_eq_advance {before after : List Char} (hsource : source = before ++ (whole ++ after))
    (hstart : m.start = byteLength before) (hstop : m.stop = byteLength (before ++ whole)) :
    m.range source = ⟨advance ⟨0, 0⟩ before, advance ⟨0, 0⟩ (before ++ whole)⟩ := by
  have hfirst : positionAt m.start source = advance ⟨0, 0⟩ before := by rw [hstart, hsource, positionAt_byteLength]
  have hlast : positionAt m.stop source = advance ⟨0, 0⟩ (before ++ whole) := by
    rw [hstop, hsource, ← List.append_assoc, positionAt_byteLength]
  rw [Mention.range, hfirst, hlast]

namespace Mention.StandsIn

variable (ht : t.LiesInText) (h : m.StandsIn t whole)

include h in
theorem start_lt_stop : m.start < m.stop := by
  obtain ⟨name, hspells⟩ := h.occurs.spells
  obtain ⟨body, rfl, -⟩ := hspells.eq_cons
  have hsize := byteLength_pos (List.cons_ne_nil '<' ('<' :: body))
  rw [start, stop, h.occurs.stop_eq]
  omega

include ht h

private theorem lies :
    m.scalar.Lies t.source := ht _ ((Node.preorder_sublist _ (Tree.top_mem_preorder t)).subset h.scalar_mem)

/-- The text of a scalar stands between its marks. -/
theorem exists_append : ∃ before after, t.source = before ++ (t.textOf m.scalar ++ after) ∧
    m.scalar.start = Mark.after {} before ∧ m.scalar.stop = Mark.after {} (before ++ t.textOf m.scalar) :=
  (h.lies ht).exists_append

/-- A mention is written at its offsets. -/
theorem exists_around : ∃ before after,
    t.source = before ++ (whole ++ after) ∧ m.start = byteLength before ∧ m.stop = byteLength (before ++ whole) ∧
      m.scalar.start.offset ≤ m.start ∧ m.stop ≤ m.scalar.stop.offset := by
  obtain ⟨before, after, hsource, hfirst, hlast⟩ := h.exists_append ht
  obtain ⟨inside, rest, htext, hstart⟩ := h.occurs.placed
  have hscalar : m.scalar.start.offset = byteLength before := by
    rw [hfirst, Mark.offset_after]
    exact Nat.zero_add _
  have hend : m.scalar.stop.offset = byteLength before + byteLength (inside ++ (whole ++ rest)) := by
    rw [hlast, Mark.offset_after, htext, byteLength_append]
    exact Nat.zero_add _
  refine ⟨before ++ inside, rest ++ after, ?_, ?_, ?_, Nat.le_add_right _ _, ?_⟩
  · rw [htext] at hsource
    simpa only [List.append_assoc] using hsource
  · rw [start, hscalar, hstart, byteLength_append]
  · rw [stop, hscalar, h.occurs.stop_eq, hstart, byteLength_append, byteLength_append, Nat.add_assoc]
  · rw [stop, hscalar, hend, h.occurs.stop_eq, hstart, byteLength_append, byteLength_append]
    omega

/-- The place of a mention leads back to its offsets, and the text there is that of the reference. -/
theorem located : offsetOf? (m.range t.source).start t.source = some m.start ∧
    offsetOf? (m.range t.source).stop t.source = some m.stop ∧ slice? t.source m.start m.stop = some whole := by
  obtain ⟨before, after, hsource, hstart, hstop, -, -⟩ := h.exists_around ht
  rw [range_eq_advance hsource hstart hstop, hstart, hstop, hsource]
  refine ⟨offsetOf?_advance before _, ?_, ?_⟩
  · rw [← List.append_assoc]
    exact offsetOf?_advance (before ++ whole) _
  · rw [byteLength_append]
    exact slice?_append before whole after

/-- A mention starts inside its scalar. -/
theorem position_start : m.scalar.start.position ≤ (m.range t.source).start ∧
    (m.range t.source).start < m.scalar.stop.position := by
  obtain ⟨before, after, hsource, hfirst, hlast⟩ := h.exists_append ht
  obtain ⟨inside, rest, htext, hstart⟩ := h.occurs.placed
  have hwhole : whole ≠ [] := by
    obtain ⟨name, hspells⟩ := h.occurs.spells
    obtain ⟨body, rfl, -⟩ := hspells.eq_cons
    exact List.cons_ne_nil _ _
  have hposition : (m.range t.source).start = advance ⟨0, 0⟩ (before ++ inside) := by
    have hoffset : m.start = byteLength (before ++ inside) := by
      rw [start, hfirst, Mark.offset_after, hstart, byteLength_append]
      exact congrArg (· + _) (Nat.zero_add _)
    rw [htext, List.append_assoc, ← List.append_assoc before] at hsource
    rw [range, hoffset, hsource]
    exact positionAt_byteLength _ _
  rw [hposition, hfirst, hlast, Mark.position_after, Mark.position_after, htext, ← List.append_assoc, advance_append,
    advance_append _ (before ++ inside), advance_append _ before]
  exact ⟨le_advance _ _, lt_advance _ (by simp [hwhole])⟩

end Mention.StandsIn

/-- In an orderly tree mentions stand one after the other. -/
theorem pairwise_mentions (ht : t.IsOrderly) : (mentions t).Pairwise fun m m' => m.stop ≤ m'.start := by
  rw [mentions, List.pairwise_flatMap]
  refine ⟨fun scalar _ => ?_, ?_⟩
  · rw [List.pairwise_map]
    exact (Reference.pairwise_findAll _).imp fun h => Nat.add_le_add_left h _
  · refine (ht.pairwise_scalars (Tree.top_mem_preorder t)).imp_of_mem fun {n n'} hn hn' hapart => ?_
    intro m hm m' hm'
    obtain ⟨r, hr, rfl⟩ := List.mem_map.mp hm
    obtain ⟨r', -, rfl⟩ := List.mem_map.mp hm'
    obtain ⟨hmem, hkind⟩ := List.mem_filter.mp hn
    obtain ⟨whole, hoccurs⟩ := Reference.mem_findAll_iff.mp hr
    have hstands : Mention.StandsIn ⟨n, r⟩ t whole := ⟨hmem, hkind, hoccurs⟩
    obtain ⟨-, -, -, -, -, -, hinside⟩ := hstands.exists_around ht.lies
    exact hinside.trans (hapart.trans (Nat.le_add_right _ _))

/-- A mention is reported just if it is not declared: no other mention has its place. -/
theorem mem_references_iff (ht : s.document.tree.IsOrderly) (hm : m.StandsIn s.document.tree whole) :
    .finding (m.undefined s.document.source) ∈ references s ↔ m.isDeclared s = false := by
  have hmem := mem_mentions_iff.mpr ⟨whole, hm⟩
  rw [references_eq, List.mem_map]
  constructor
  · rintro ⟨m', hm', hsame⟩
    obtain ⟨hm', hdeclared⟩ := List.mem_filter.mp hm'
    obtain ⟨whole', hstands⟩ := mem_mentions_iff.mp hm'
    have hnodup : ((mentions s.document.tree).map Mention.start).Nodup :=
      List.pairwise_map.mpr ((pairwise_mentions ht).imp_of_mem fun {m m'} hmem _ hbefore => by
        obtain ⟨whole, hstands⟩ := mem_mentions_iff.mp hmem
        exact Nat.ne_of_lt (Nat.lt_of_lt_of_le hstands.start_lt_stop hbefore))
    have hrange : m'.range s.document.source = m.range s.document.source :=
      congrArg Diagnostic.range (Notice.finding.inj hsame)
    have hstart : m'.start = m.start := by
      have hlocated := (hstands.located ht.lies).1
      rw [show s.document.tree.source = s.document.source from rfl, hrange] at hlocated
      exact Option.some.inj (hlocated.symm.trans (hm.located ht.lies).1)
    obtain rfl := List.inj_on_of_nodup_map hnodup hm' hmem hstart
    simpa using hdeclared
  · intro hdeclared
    exact ⟨m, List.mem_filter.mpr ⟨hmem, by simp [hdeclared]⟩, rfl⟩

/-- A check of references reports each reference that stands in a scalar of the first document (of the whole tree, where
that document has no value) and is not declared, and nothing else; in an orderly tree it does so once for each, in the
order of the text. If the nodes lie in the text, the place that is reported is that of the text of the reference. -/
theorem references_exact {nested : List Char → Except Endless Document} {kind : DocumentKind} (ht : t.LiesInText)
    (hread : Read.ofTreeWith nested kind t = .ok s.document) : ∃ all : List Mention,
    (∀ m, m ∈ all ↔ ∃ whole, m.StandsIn t whole) ∧
    (t.IsOrderly → all.Pairwise fun m m' => m.stop ≤ m'.start) ∧
    references s = (all.filter fun m => !m.isDeclared s).map (fun m => .finding (m.undefined t.source)) ∧
    ∀ (m : Mention) whole, m.StandsIn t whole → m.start < m.stop ∧
      offsetOf? (m.range t.source).start t.source = some m.start ∧
      offsetOf? (m.range t.source).stop t.source = some m.stop ∧ slice? t.source m.start m.stop = some whole := by
  have htree := Read.tree_of_ofTreeWith hread
  refine ⟨mentions t, fun m => mem_mentions_iff, pairwise_mentions, ?_, fun m whole h => ⟨h.start_lt_stop, h.located ht⟩⟩
  rw [references_eq, Document.source, htree]

def plainScope (d : Document) : Scope := { settings := {}, caches := {}, failures := ∅, document := d }

theorem references_exact_of_greeting :
    let t := Grammar.strict.tree "commands: {greet: {steps: [{run: << parameters.to >>}]}}".toList
    ∃ d, Document.parseTree .strict .config t = .ok d ∧ t.IsOrderly ∧ ∃ all : List Mention,
      (∀ m, m ∈ all ↔ ∃ whole, m.StandsIn t whole) ∧ (all.Pairwise fun m m' => m.stop ≤ m'.start) ∧
      references (plainScope d) =
        (all.filter fun m => !m.isDeclared (plainScope d)).map fun m => .finding (m.undefined t.source) := by
  intro t
  have ht : t.IsOrderly := by decide +kernel
  have hread : (Document.parseTree .strict .config t).toOption.isSome = true := by decide +kernel
  obtain ⟨d, hd⟩ := Option.isSome_iff_exists.mp hread
  have hd := eq_ok_of_toOption hd
  obtain ⟨all, hall, horder, hreferences, -⟩ := references_exact (s := plainScope d) ht.lies hd
  exact ⟨d, hd, ht, all, hall, horder ht, hreferences⟩

def emptyFirst : List Char := "---\n---\na: << parameters.x >>\n".toList

/-- No scalar stands in the first document of this text, and a reference in the second one is reported. -/
theorem reference_of_later_document : ∃ d first, Document.parse .strict emptyFirst = .ok d ∧
    (Grammar.strict.tree emptyFirst).root.children.find? (·.kind = .document) = some first ∧
    (∀ n ∈ first.preorder, n.kind.isScalar = false) ∧
    findings (references (plainScope d)) =
      [.error .undefinedParameter ⟨⟨2, 3⟩, ⟨2, 21⟩⟩ "Parameter x is not defined"] := by
  have hfirst : ((Grammar.strict.tree emptyFirst).root.children.find? (·.kind = .document)).any
      (fun first => first.preorder.all fun n => !n.kind.isScalar) = true := by decide +kernel
  have hfound : (Document.parse .strict emptyFirst).toOption.map (fun d => findings (references (plainScope d))) =
      some [.error .undefinedParameter ⟨⟨2, 3⟩, ⟨2, 21⟩⟩ "Parameter x is not defined"] := by decide +kernel
  obtain ⟨first, hsome, hscalars⟩ := (Option.any_eq_true _ _).mp hfirst
  obtain ⟨d, hd, hfindings⟩ := Option.map_eq_some_iff.mp hfound
  exact ⟨d, first, eq_ok_of_toOption hd, hsome, fun n hn => by simpa using List.all_eq_true.mp hscalars n hn,
    hfindings⟩

open Document

/-- An owner is around a place without including the scalar there: the scalar is in its name or in what could not be
read, or the owner ends at the place, or the scalar does not show in the tree of the document of the owner, which was
cut out of the text. -/
def Misfits (d : Document) (p : Position) (place : Range) : Prop :=
  ∃ t, Within p d t ∧ ∃ kind, ∃ o ∈ t.ownersOf kind, o.range.contains p ∧
    (¬ t.tree.ShowsScalar place ∨ o.nameRange.containsRange place ∨ t.tree.IsUnread place ∨ o.range.stop = p)

/-- All owners that include a scalar declare a parameter. -/
def DeclaredByAll (d : Document) (p : Position) (place : Range) (name : String) : Prop :=
  ∀ t, Within p d t → ∀ kind, ∀ o ∈ t.ownersOf kind, o.Includes t.tree kind place → o.parameters.contains name

theorem isDeclared_eq_false_iff (hscope : m.reference.scope = .enclosing) : m.isDeclared s = false ↔
    ∀ parameters, parametersAt? (m.range s.document.source).start s.document = some parameters →
      parameters.contains m.reference.name = false := by
  rw [Mention.isDeclared, hscope]
  cases parametersAt? (m.range s.document.source).start s.document <;> simp

variable {g : Grammar} (hd : s.document.IsReadBy g)
  (horderly : ∀ t, Within (m.range s.document.source).start s.document t → t.tree.IsOrderly)
  (hm : m.StandsIn s.document.tree whole)
  (hdeclared : DeclaredByAll s.document (m.range s.document.source).start m.scalar.range m.reference.name)
include hd horderly hm hdeclared

/-- What a lookup finds at a mention declares it, if all owners of the scalar do and no other owner is around. -/
theorem contains_of_parametersAt? {parameters : Parameters}
    (hfound : parametersAt? (m.range s.document.source).start s.document = some parameters) :
    parameters.contains m.reference.name ∨ Misfits s.document (m.range s.document.source).start m.scalar.range := by
  obtain ⟨t, ht, kind, o, ho, haround, rfl⟩ := exists_owner_of_parametersAt? s.document hfound
  obtain ⟨hstart, hstop⟩ := hm.position_start (horderly _ .self).lies
  obtain ⟨_, _, hread⟩ := hd.within ht
  by_cases hshows : t.tree.ShowsScalar m.scalar.range
  · obtain ⟨n, hn, hscalar, hrange⟩ := hshows
    have hfirst : n.start.position = m.scalar.start.position := congrArg Range.start hrange
    have hlast : n.stop.position = m.scalar.stop.position := congrArg Range.stop hrange
    rcases Owner.includes_of_contains (Read.ownersRead_of_ofTreeWith hread) (horderly t ht) ho haround hn hscalar
      (hfirst ▸ hstart) (hlast ▸ hstop) with hincludes | hmisfits
    · exact .inl (hdeclared t ht kind o ho (hrange ▸ hincludes))
    · exact .inr ⟨t, ht, kind, o, ho, haround, .inr (hrange ▸ hmisfits)⟩
  · exact .inr ⟨t, ht, kind, o, ho, haround, .inl hshows⟩

/-- Where all owners of a scalar declare the parameter of a reference in it, the reference is reported if no owner is
found at its place, and only then, unless an owner is around that does not include the scalar. So it is not reported
where an owner is written around it: a command, a job, or an executor outside of the section of orbs. -/
theorem references_in_bodies (hscope : m.reference.scope = .enclosing) :
    let place := (m.range s.document.source).start
    (parametersAt? place s.document = none → .finding (m.undefined s.document.source) ∈ references s) ∧
    (.finding (m.undefined s.document.source) ∈ references s → parametersAt? place s.document = none ∨
      Misfits s.document place m.scalar.range) ∧
    ∀ kind, ∀ o ∈ s.document.ownersOf kind, o.Surrounds s.document.tree kind m.scalar.range →
      (kind = .executor → s.document.orbsRange.contains place = false) →
      .finding (m.undefined s.document.source) ∈ references s → Misfits s.document place m.scalar.range := by
  have hself := horderly _ .self
  have hreported : .finding (m.undefined s.document.source) ∈ references s →
      parametersAt? (m.range s.document.source).start s.document = none ∨
        Misfits s.document (m.range s.document.source).start m.scalar.range := by
    intro hmem
    rw [mem_references_iff hself hm, isDeclared_eq_false_iff hscope] at hmem
    cases hfound : parametersAt? (m.range s.document.source).start s.document with
    | none => exact .inl rfl
    | some parameters =>
      refine .inr ((contains_of_parametersAt? hd horderly hm hdeclared hfound).resolve_left ?_)
      simp [hmem parameters hfound]
  refine ⟨fun hnone => ?_, hreported, fun kind o ho hsurrounds horbs hmem => ?_⟩
  · rw [mem_references_iff hself hm, isDeclared_eq_false_iff hscope, hnone]
    intro parameters hfound
    cases hfound
  · obtain ⟨hstart, hstop⟩ := hm.position_start hself.lies
    obtain ⟨_, _, hread⟩ := hd
    obtain ⟨haround, hsection⟩ := Owner.contains_of_surrounds (Read.ownersRead_of_ofTreeWith hread) hself ho hsurrounds
      (Range.contains_iff.mpr ⟨hstart, hstop.1⟩)
    exact (hreported hmem).resolve_left (parametersAt?_ne_none ho haround hsection horbs)

omit hd horderly hm hdeclared

/-- Steps under an anchor, and a command that takes them over by an alias and declares what they refer to. -/
def sharedSteps : List Char :=
  ("x-steps: &s\n  - run: echo << parameters.to >>\n" ++
    "commands:\n  greet:\n    parameters:\n      to:\n        type: string\n    steps: *s\n").toList

/-- An owner whose body holds an alias of a value with a scalar. -/
def includesOverAlias (t : Tree) (kind : OwnerKind) (o : Owner) (place : Range) : Bool :=
  let v := View.ofTree t
  (v.find? t.top kind.key).any fun q => q.value.any fun value => (v.pairs value).any fun p =>
    o.range = p.range && p.key.any (fun key => o.nameRange = key.range) && p.rawValue.any fun body =>
      body.preorder.any fun a => a.kind = .alias && (v.values.get? (v.nameOfAlias a)).any fun target =>
        target.preorder.any fun n => n.kind.isScalar && n.range = place

private theorem includes_of_includesOverAlias {t : Tree} {kind : OwnerKind} {o : Owner} {place : Range}
    (h : includesOverAlias t kind o place = true) : o.Includes t kind place := by
  simp only [includesOverAlias, Option.any_eq_true, List.any_eq_true, Bool.and_eq_true, decide_eq_true_eq] at h
  obtain ⟨q, hq, value, hvalue, p, hp, ⟨hrange, key, hkey, hname⟩, body, hbody, a, ha, halias, target, htarget, n, hn,
    hscalar, hplace⟩ := h
  exact ⟨q, p, body, n, ⟨hq, ⟨value, hvalue, hp⟩, hrange, key, hkey, hname⟩, hbody,
    (View.reaches_of_mem_preorder body ha).trans (.head (.inr ⟨halias, htarget⟩) (View.reaches_of_mem_preorder target hn)),
    hscalar, hplace⟩

/-- A mention in a document that is read from orderly trees, which owners include and all of them declare. -/
structure Owned (g : Grammar) (d : Document) (m : Mention) : Prop where
  read : d.IsReadBy g
  orderly : ∀ t, Within (m.range d.source).start d t → t.tree.IsOrderly
  standsIn : ∃ whole, m.StandsIn d.tree whole
  scope_eq : m.reference.scope = .enclosing
  included : ∃ kind, ∃ o ∈ d.ownersOf kind, o.Includes d.tree kind m.scalar.range
  declared : DeclaredByAll d (m.range d.source).start m.scalar.range m.reference.name

theorem owned_sharedSteps : ∃ d m, Document.parse .strict sharedSteps = .ok d ∧ Owned .strict d m ∧
    parametersAt? (m.range d.source).start d = none := by
  have hcheck : (Document.parse .strict sharedSteps).toOption.any (fun d => (mentions d.tree).any fun m =>
      decide d.tree.IsOrderly && decide (m.reference.scope = .enclosing) && d.localOrbs.isEmpty &&
        (d.ownersOf .command).any (fun o => includesOverAlias d.tree .command o m.scalar.range) &&
        [OwnerKind.command, .job, .executor].all (fun kind => (d.ownersOf kind).all (·.parameters.contains m.reference.name)) &&
        (parametersAt? (m.range d.source).start d).isNone) = true := by
    delta sharedSteps
    rw [String.toList_append, String.toList_ofList, String.toList_ofList]
    decide +kernel
  obtain ⟨d, hd, hm⟩ := (Option.any_eq_true _ _).mp hcheck
  obtain ⟨m, hmem, hm⟩ := List.any_eq_true.mp hm
  simp only [Bool.and_eq_true, decide_eq_true_eq, List.any_eq_true, List.all_eq_true, List.isEmpty_iff,
    Option.isNone_iff_eq_none] at hm
  obtain ⟨⟨⟨⟨⟨horderly, hscope⟩, horbs⟩, o, ho, hincludes⟩, hall⟩, hnone⟩ := hm
  have hd := eq_ok_of_toOption hd
  have hself : ∀ {t p}, Within p d t → t = d := by
    intro t p ht
    cases ht with
    | self => rfl
    | localOrb mem _ _ =>
      rw [horbs] at mem
      cases mem
  refine ⟨d, m, hd, ⟨isReadBy_of_parse hd, fun t ht => hself ht ▸ horderly, mem_mentions_iff.mp hmem, hscope,
    ⟨.command, o, ho, includes_of_includesOverAlias hincludes⟩, ?_⟩, hnone⟩
  intro t ht kind o' ho' _
  obtain rfl := hself ht
  exact hall kind (by cases kind <;> simp) o' ho'

/-- No owner is written around the shared steps, so the reference in them is reported. -/
theorem references_in_bodies_of_sharedSteps : ∃ d m, Document.parse .strict sharedSteps = .ok d ∧ Owned .strict d m ∧
    parametersAt? (m.range d.source).start d = none ∧ .finding (m.undefined d.source) ∈ references (plainScope d) := by
  obtain ⟨d, m, hd, h, hnone⟩ := owned_sharedSteps
  obtain ⟨whole, hm⟩ := h.standsIn
  exact ⟨d, m, hd, h, hnone,
    (references_in_bodies (s := plainScope d) h.read h.orderly hm h.declared h.scope_eq).1 hnone⟩

/-- A reference that all owners of its scalar declare is reported. -/
theorem sharedSteps_reported :
    ¬ ∀ g d m, Owned g d m → .finding (m.undefined d.source) ∉ references (plainScope d) := by
  intro hall
  obtain ⟨d, m, -, h, hnone⟩ := owned_sharedSteps
  obtain ⟨whole, hm⟩ := h.standsIn
  refine hall .strict d m h ?_
  have hmem := mem_references_iff (s := plainScope d) (h.orderly d .self) hm
  rw [isDeclared_eq_false_iff h.scope_eq] at hmem
  refine hmem.mpr fun parameters hfound => ?_
  cases hnone.symm.trans hfound

end Check

end PipelineLint
