import PipelineLint.Proofs.Document.FitsEntities
import PipelineLint.Proofs.Document.NestedOrbs
import PipelineLint.Proofs.Document.Owners
import PipelineLint.Proofs.Text.Split

/-! # Documents that are read fit their texts

What is read from a text fits it, but for the bodies of its orbs. Each body is read from a text of its own: what stands
before it is blank there, and a line feed is added after it. So what is found in a body fits the text that is read for
it, and such a text can have one line more than the text around it.
-/

namespace PipelineLint

open Text Yaml Yaml.View Reads

namespace Read

private theorem lastLine_blanks (cs : List Char) : lastLine (blanks cs) = lastLine cs := by
  induction cs with
  | nil => rfl
  | cons c cs ih =>
    have hcons : lastLine (c :: cs) = lastLine [c] + lastLine cs := lastLine_append [c] cs
    rw [blanks_cons, lastLine_append, ih, hcons]
    split
    · rfl
    · next hbreak =>
      have hline : c ≠ '\n' := by
        rintro rfl
        exact hbreak (by decide)
      have hfirst : lastLine (List.replicate c.utf8Size ' ') = 0 := by simp [lastLine, List.count_replicate]
      have hsecond : lastLine [c] = 0 := by simp [lastLine, hline]
      rw [hfirst, hsecond]

/-- The text of a body ends at most one line after the text around it. -/
theorem lastLine_orbText_le (source : List Char) (body : Node) :
    lastLine (orbText source body) ≤ lastLine source + 1 := by
  have hend : lastLine ['\n'] = 1 := rfl
  cases hslice : slice? source body.start.offset body.stop.offset with
  | none =>
    have hbefore : lastLine (takeBytes body.start.offset source) ≤ lastLine source := by
      conv_rhs => rw [← takeBytes_append_dropBytes body.start.offset source]
      rw [lastLine_append]
      exact Nat.le_add_right _ _
    rw [orbText, slice, hslice, Option.getD_none, List.append_nil, lastLine_append, lastLine_blanks, hend]
    exact Nat.add_le_add_right hbefore 1
  | some text =>
    obtain ⟨before, after, hsource, horb, -, -⟩ := exists_orbText hslice
    rw [horb, hsource]
    simp only [lastLine_append, lastLine_blanks, hend]
    omega

variable {g : Grammar} {t : Tree} {n top : Node} {p : Pair} {d : Document} {f : Diagnostic}
  {nested : List Char → Except Endless Document}

private theorem lastLine_le_of_mem_handedOn {text : List Char} (htext : text ∈ handedOn t) :
    lastLine text ≤ lastLine t.source + 1 := by
  obtain ⟨-, -, -, -, -, body, -, rfl⟩ := exists_body_of_mem_handedOn htext
  exact lastLine_orbText_le _ _

/-- Each orb adds at most one line. -/
theorem ReadIn.lastLine_le {depth : Nat} {inner : Tree} (h : ReadIn g depth t inner) :
    lastLine inner.source ≤ lastLine t.source + depth := by
  induction h with
  | self => exact le_refl _
  | @orb depth t inner text body _ ih =>
    calc lastLine inner.source ≤ lastLine text + depth := ih
      _ ≤ lastLine t.source + 1 + depth := Nat.add_le_add_right (lastLine_le_of_mem_handedOn body) depth
      _ = lastLine t.source + (depth + 1) := by omega

/-- The finding fits the text of the tree that was read where it was found. -/
def FitsWhereRead (g : Grammar) (t : Tree) (f : Diagnostic) : Prop :=
  ∃ depth inner, ReadIn g depth t inner ∧ f.Fits (lastLine inner.source)

theorem fitsWhereRead_of_fits (h : f.Fits (lastLine t.source)) : FitsWhereRead g t f := ⟨0, t, .self t, h⟩

private theorem FitsWhereRead.inOrb {text : List Char} (htext : text ∈ handedOn t)
    (h : FitsWhereRead g (g.tree text) f) :
    FitsWhereRead g t f := by
  obtain ⟨depth, inner, hwithin, hfits⟩ := h
  exact ⟨depth + 1, inner, .orb htext hwithin, hfits⟩

/-- The place of a version lies in the value that it is a part of. -/
theorem fits_orbVersionRange (hn : n.Lies t.source) : (orbVersionRange (.ofTree t) n).Fits (lastLine t.source) := by
  rw [orbVersionRange]
  split
  · exact Range.fits_nowhere
  · next before rest hcut =>
    obtain ⟨htext, -⟩ := cut?_singleton_eq_some_iff.mp hcut
    refine ⟨hn.start.row_le, hn.stop.row_le, fun _ => ?_⟩
    have hposition : n.stop.position = advance n.start.position ((before ++ ['@']) ++ rest) := by
      obtain ⟨around, _, -, hfirst, hlast⟩ := hn.exists_append
      have hraw : slice t.source n.start.offset n.stop.offset = before ++ '@' :: rest := htext
      have hslice : slice t.source n.start.offset n.stop.offset = (before ++ ['@']) ++ rest := by simpa using hraw
      rw [hlast, hfirst, Mark.after_append, Mark.position_after, ← hfirst, hslice]
    have hsign : byteLength ['@'] = 1 := rfl
    have hle := column_le_advance n.start.position (before ++ ['@']) rest
    rw [← hposition, byteLength_append, hsign, ← Nat.add_assoc] at hle
    exact hle

structure EntitiesFit (last : Nat) (d : Document) : Prop where
  orbs : ∀ use ∈ d.orbs.values, use.Fits last
  executors : ∀ e ∈ d.executors.values, e.Fits last
  commands : ∀ c ∈ d.commands.values, c.Fits last
  jobs : ∀ j ∈ d.jobs.values, j.Fits last
  workflows : ∀ w ∈ d.workflows.values, w.Fits last

/-- What is read from a tree fits its text, and what is read from the texts of its orbs fits these. -/
structure FitsText (t : Tree) (d : Document) : Prop where
  anchors : d.anchors = .ofTree t
  entities : EntitiesFit (lastLine t.source) d
  localOrbs : ∀ o ∈ d.localOrbs, ∃ text ∈ handedOn t, EntitiesFit (lastLine text) o.document

structure FitsAsRead (g : Grammar) (t : Tree) (d : Document) : Prop extends FitsText t d where
  diagnostics : ∀ f ∈ d.diagnostics, FitsWhereRead g t f

/-- If reading has a result, it has a property, and each finding fits where it was read. -/
abbrev YieldsFrom {α : Type} (g : Grammar) (t : Tree) (P : α → Prop) (x : Reads α) : Prop :=
  Yields (FitsWhereRead g t) P x

private theorem YieldsIn.from {α : Type} {P : α → Prop} {x : Reads α} (h : YieldsIn (lastLine t.source) P x) :
    YieldsFrom g t P x := h.mono (fun _ => fitsWhereRead_of_fits) fun _ => id

/-- An orb fits, and what is read of its body fits the text of the body. -/
def OrbFits (t : Tree) (found : OrbUse × Option LocalOrb) : Prop :=
  found.1.Fits (lastLine t.source) ∧ ∀ o ∈ found.2, ∃ text ∈ handedOn t, EntitiesFit (lastLine text) o.document

private theorem FitsText.giveContexts (h : FitsText t d) : FitsText t (giveContexts d) := by
  refine giveContexts_induction (I := FitsText t) (fun name context h => ?_) (fun name context h => ?_) h
  · refine { h with entities := { h.entities with jobs := fun j hj => ?_ } }
    obtain ⟨j', hj', rfl | rfl⟩ := NameMap.mem_values_modify hj
    · exact h.entities.jobs _ hj'
    · exact { h.entities.jobs j' hj' with }
  · refine { h with entities := { h.entities with commands := fun c hc => ?_ } }
    obtain ⟨c', hc', rfl | rfl⟩ := NameMap.mem_values_modify hc
    · exact h.entities.commands _ hc'
    · exact { h.entities.commands c' hc' with }

private theorem yieldsFrom_emptySection (hp : (View.ofTree t).PairFits (lastLine t.source) p) :
    YieldsFrom g t (fun _ => True) (emptySection p) :=
  yields_note (fitsWhereRead_of_fits (Diagnostic.fits_warning hp.range))

section

variable (ht : t.LiesInText)
  (hnested : ∀ text ∈ handedOn t, ∀ d, nested text = .ok d → FitsAsRead g (g.tree text) d)
include ht hnested

private theorem yieldsFrom_orb (hn : n ∈ t.root.preorder) (hp : p ∈ (View.ofTree t).pairs n)
    (htexts : ∀ text ∈ orbText? (.ofTree t) p, text ∈ handedOn t) :
    YieldsFrom g t (fun found => ∀ o ∈ found, OrbFits t o) (orb (.ofTree t) nested p) := by
  have hfits := (fitsFrom_of_liesInText ht hn).pairs p hp
  unfold orb
  split
  · next key value hkey hvalue =>
    have hfrom := hfits.rawValue value hvalue
    have hmem := mem_preorder_of_reaches hn ((below_of_mem_pairs hp).rawValue hvalue).to_reflTransGen
    have hbare : OrbUse.Fits (lastLine t.source) { nameRange := key.range, range := p.range, valueRange := value.range } :=
      ⟨hfits.key key hkey, hfits.range, Range.fits_nowhere, hfrom.range⟩
    dsimp only
    split
    · refine yields_pure ?_
      rintro _ ⟨⟩
      exact ⟨{ hbare with versionRange := fits_orbVersionRange (ht _ hmem) }, forall_mem_none _⟩
    · next hkind =>
      split
      · exact yields_pure (forall_mem_none _)
      · next hmapping =>
        split
        · exact yields_endless
        · next document hdocument =>
          have htext : orbText t.source value ∈ handedOn t := by
            refine htexts _ ?_
            have hsome : ((View.ofTree t).mapping? value).isSome :=
              Option.isSome_iff_ne_none.mpr (by simpa using hmapping)
            rw [orbText?, hkey, hvalue]
            exact if_pos ⟨hkind, hsome⟩
          have hread := hnested _ htext _ hdocument
          refine (yields_notes fun f hf => (hread.diagnostics f hf).inOrb htext).bind fun _ _ => yields_pure ?_
          rintro _ ⟨⟩
          refine ⟨{ hbare with }, ?_⟩
          rintro _ ⟨⟩
          exact ⟨_, htext, hread.entities⟩
    · exact yields_pure (forall_mem_none _)
  · exact yields_pure (forall_mem_none _)

private theorem yieldsFrom_orbs (hn : n ∈ t.root.preorder)
    (htexts : ∀ text ∈ ((View.ofTree t).pairs n).filterMap (orbText? (.ofTree t)), text ∈ handedOn t) :
    YieldsFrom g t (fun found => (∀ use ∈ found.1.values, use.Fits (lastLine t.source)) ∧
      ∀ o ∈ found.2, ∃ text ∈ handedOn t, EntitiesFit (lastLine text) o.document) (orbs (.ofTree t) nested n) := by
  refine yields_through (fun found p hp ⟨huses, horbs⟩ => ?_) (by simp [values_empty])
  have hone := yieldsFrom_orb ht hnested hn hp fun text htext => htexts text (List.mem_filterMap.mpr ⟨p, hp, htext⟩)
  refine hone.bind fun read hread => ?_
  have hinsert {use : OrbUse} {inner : Option LocalOrb} (huse : OrbFits t (use, inner)) :
      ∀ u ∈ (found.1.insert use.name use).values, u.Fits (lastLine t.source) :=
    fun u hu => (NameMap.mem_values_insert hu).elim (fun heq => heq ▸ huse.1) (huses u)
  rcases read with _ | ⟨use, _ | inner⟩
  · exact yields_pure ⟨huses, horbs⟩
  · exact yields_pure ⟨hinsert (hread _ rfl), horbs⟩
  · refine yields_pure ⟨hinsert (hread _ rfl), fun o ho => ?_⟩
    rcases LocalOrb.mem_insert ho with rfl | ho
    · exact (hread _ rfl).2 _ rfl
    · exact horbs o ho

private theorem yieldsFrom_readSection {name : String} (htop : t.top? = some top)
    (hp : (View.ofTree t).find? top name = some p)
    (hd : FitsText t d) : YieldsFrom g t (FitsText t) (readSection (.ofTree t) nested d name p) := by
  have hmem := t.top_mem_preorder
  rw [Tree.top, htop, Option.getD_some] at hmem
  have hpair := List.mem_of_find?_eq_some hp
  have hfits := (fitsFrom_of_liesInText ht hmem).pairs p hpair
  unfold readSection
  dsimp only
  split
  · exact yields_pure { hd with entities := { hd.entities with } }
  · exact yields_pure { hd with entities := { hd.entities with } }
  · next value hvalue =>
    have horbs := mem_preorder_of_reaches hmem ((below_of_mem_pairs hpair).value hvalue).to_reflTransGen
    refine (yieldsFrom_orbs ht hnested horbs fun text htext => ?_).bind fun found hfound => yields_pure ?_
    · have hfield : (View.ofTree t).field? top "orbs" = some value := by rw [field?, hp, Option.bind_some, hvalue]
      rw [handedOn, htop, Option.map_some, Option.getD_some, orbTexts, hfield]
      exact htext
    · exact { hd with entities := { hd.entities with orbs := hfound.1 }, localOrbs := hfound.2 }
  · exact (yieldsFrom_emptySection hfits).bind fun _ _ => yields_pure { hd with entities := { hd.entities with } }
  · next value hvalue =>
    exact (yieldsIn_executors (hfits.value value hvalue)).from.bind fun executors hexecutors =>
      yields_pure { hd with entities := { hd.entities with executors := hexecutors } }
  · exact (yieldsFrom_emptySection hfits).bind fun _ _ => yields_pure { hd with entities := { hd.entities with } }
  · next value hvalue =>
    exact (yieldsIn_commands (hfits.value value hvalue)).from.bind fun commands hcommands =>
      yields_pure { hd with entities := { hd.entities with commands := hcommands } }
  · exact yields_pure { hd with entities := { hd.entities with } }
  · next value hvalue =>
    exact (yieldsIn_jobs (hfits.value value hvalue)).from.bind fun jobs hjobs =>
      yields_pure { hd with entities := { hd.entities with jobs := hjobs } }
  · next value hvalue =>
    exact (yieldsIn_parameters (hfits.value value hvalue)).from.bind fun _ _ =>
      yields_pure { hd with entities := { hd.entities with } }
  · exact (yieldsFrom_emptySection hfits).bind fun _ _ => yields_pure { hd with entities := { hd.entities with } }
  · next value hvalue =>
    exact (yieldsIn_workflows _ (hfits.value value hvalue)).from.bind fun workflows hworkflows =>
      yields_pure { hd with entities := { hd.entities with workflows := hworkflows } }
  · exact yields_pure hd

private theorem yieldsFrom_contents (kind : DocumentKind) : YieldsFrom g t (FitsText t) (contents nested kind t) := by
  have hbare : FitsText t { Document.ofTree kind t with anchors := .ofTree t } :=
    ⟨rfl, by constructor <;> simp [Document.ofTree, values_empty], by simp [Document.ofTree]⟩
  unfold contents
  dsimp only
  split
  · next top htop =>
    refine (yields_through (I := FitsText t) (fun d name _ hd => ?_) hbare).bind fun read hread =>
      yields_pure hread.giveContexts
    split
    · next p hp => exact yieldsFrom_readSection ht hnested htop hp hd
    · exact yields_pure hd
  · exact yields_pure hbare

end

private theorem fits_badMerge? (ht : t.LiesInText) (hn : n ∈ t.root.preorder) (hf : badMerge? (.ofTree t) n = some f) :
    f.Fits (lastLine t.source) := by
  obtain ⟨p, hp, hf⟩ := Option.bind_eq_some_iff.mp hf
  obtain ⟨-, hf⟩ := Option.ite_none_right_eq_some.mp hf
  obtain rfl := Option.some.inj hf
  exact Diagnostic.fits_error ((fitsFrom_of_liesInText ht hn).pair hp).valueOrPairRange

private theorem fits_syntaxFinding? (ht : t.LiesInText) {place : Cursor} (hplace : place ∈ t.root.places)
    (hf : syntaxFinding? (.ofTree t) place = some f) : f.Fits (lastLine t.source) := by
  have hn := Cursor.node_mem_preorder hplace
  have hrange := (ht _ hn).range_fits
  rw [syntaxFinding?] at hf
  split at hf
  · obtain ⟨-, hf⟩ := Option.ite_none_left_eq_some.mp hf
    obtain rfl := Option.some.inj hf
    exact Diagnostic.fits_error hrange
  split at hf
  · obtain rfl := Option.some.inj hf
    exact Diagnostic.fits_error hrange
  · exact fits_badMerge? ht hn (Option.ite_none_right_eq_some.mp hf).2

end Read

variable {t : Tree} {n : Node} {last : Nat} {f : Diagnostic}

namespace Yaml.Anchors

/-- The places of anchors fit, and those of aliases without one. -/
structure Fits (last : Nat) (as : Anchors) : Prop where
  table : ∀ a ∈ as.table.values, a.definition.Fits last
  unknown : ∀ a ∈ as.unknown, a.Fits last

private theorem Fits.define {as : Anchors} {place : Cursor} (h : as.Fits last) (hplace : place.node.range.Fits last) :
    (as.define t place).Fits last := by
  rw [Anchors.define]
  split
  · exact h
  · dsimp only
    split
    · exact h
    · refine { h with table := fun a ha => ?_ }
      rcases NameMap.mem_values_insert ha with rfl | ha
      · exact hplace
      · exact h.table a ha

private theorem Fits.refer {as : Anchors} (h : as.Fits last) (hn : n.range.Fits last) : (as.refer t n).Fits last := by
  rw [Anchors.refer]
  split
  · refine { h with table := fun a ha => ?_ }
    obtain ⟨a', ha', rfl | rfl⟩ := NameMap.mem_values_modify ha
    · exact h.table a ha'
    · exact h.table a' ha'
  · exact { h with unknown := List.forall_mem_append.mpr ⟨h.unknown, List.forall_mem_singleton.mpr hn⟩ }

theorem fits_ofTree (ht : t.LiesInText) : (ofTree t).Fits (lastLine t.source) := by
  have hplace (place : Cursor) (hplace : place ∈ t.root.places) : place.node.range.Fits (lastLine t.source) :=
    (ht _ (Cursor.node_mem_preorder hplace)).range_fits
  have hempty : ({} : Anchors).Fits (lastLine t.source) := ⟨List.forall_mem_nil _, List.forall_mem_nil _⟩
  refine List.foldlRecOn (motive := Anchors.Fits _) _ _ ?_ fun as has n hn => has.refer ?_
  · exact List.foldlRecOn (motive := Anchors.Fits _) _ _ hempty fun as has place hmem =>
      has.define (hplace place (List.mem_of_mem_filter hmem))
  · obtain ⟨place, hmem, rfl⟩ := List.mem_map.mp hn
    exact hplace place (List.mem_of_mem_filter hmem)

end Yaml.Anchors

private theorem Read.fits_syntaxFindings (ht : t.LiesInText) (hf : f ∈ syntaxFindings (.ofTree t) (.ofTree t)) :
    f.Fits (lastLine t.source) := by
  simp only [syntaxFindings, List.mem_append] at hf
  rcases hf with (hf | hf) | hf
  · obtain ⟨place, hplace, hf⟩ := List.mem_filterMap.mp hf
    exact fits_syntaxFinding? ht hplace hf
  · split at hf
    · cases hf
    · obtain rfl := List.mem_singleton.mp hf
      exact Diagnostic.fits_error (ht _ t.root.self_mem_preorder).range_fits
  · obtain ⟨a, ha, rfl⟩ := List.mem_map.mp hf
    exact Diagnostic.fits_error ((Anchors.fits_ofTree ht).unknown a ha)

namespace Suppression

/-- What was found while comments were read fits, and so does the line of a range that is open. -/
structure Scan.Fits (last : Nat) (s : Scan) : Prop where
  openLine : ∀ line ∈ s.openLine, line ≤ last
  findings : ∀ d ∈ s.findings, d.Fits last

private theorem Scan.Fits.comment {s : Scan} {c : Comment} (h : s.Fits last) (hc : c.range.Fits last) :
    (s.comment c).Fits last := by
  have hadd {d : Diagnostic} (hd : d.Fits last) : ∀ d' ∈ s.findings ++ [d], d'.Fits last :=
    List.forall_mem_append.mpr ⟨h.findings, List.forall_mem_singleton.mpr hd⟩
  rw [Scan.comment]
  split
  · exact h
  · exact { h with }
  · exact { h with }
  · exact { h with }
  · split
    · exact { h with findings := hadd (Diagnostic.fits_error hc) }
    · refine { h with openLine := ?_ }
      rintro _ ⟨⟩
      exact hc.start
  · split
    · exact { h with openLine := forall_mem_none _ }
    · exact { h with findings := hadd (Diagnostic.fits_error hc) }

private theorem fits_complaints (ht : t.LiesInText) (hf : f ∈ (ofTree t).2) : f.Fits (lastLine t.source) := by
  have hscan : ((comments t).foldl Scan.comment {}).Fits (lastLine t.source) := by
    refine List.foldlRecOn (motive := Scan.Fits _) _ _ ⟨forall_mem_none _, List.forall_mem_nil _⟩
      fun s hs c hc => hs.comment ?_
    obtain ⟨place, hplace, rfl⟩ := List.mem_map.mp hc
    exact (ht _ (Cursor.node_mem_preorder (List.mem_of_mem_filter hplace))).range_fits
  rcases List.mem_append.mp hf with hf | hf
  · exact hscan.findings f hf
  · obtain ⟨line, hline, rfl⟩ := List.mem_map.mp hf
    exact Diagnostic.fits_error (Range.fits_ofCoordinates (hscan.openLine line (Option.mem_toList.mp hline)) (Nat.zero_le _))

end Suppression

namespace Read

variable {g : Grammar} {d : Document} {kind : DocumentKind} {nested : List Char → Except Endless Document}

/-- A document that is read from a tree fits where it was read, if those of its orbs do. -/
theorem fitsAsRead_of_ofTreeWith (ht : t.LiesInText)
    (hnested : ∀ text ∈ handedOn t, ∀ d, nested text = .ok d → FitsAsRead g (g.tree text) d)
    (hd : ofTreeWith nested kind t = .ok d) : FitsAsRead g t d := by
  rw [ofTreeWith] at hd
  split at hd
  · cases hd
  · next read findings hread =>
    obtain ⟨hfits, hfindings⟩ := yieldsFrom_contents ht hnested kind read findings hread
    obtain rfl := Except.ok.inj hd
    cases kind with
    | orb => exact { hfits with entities := { hfits.entities with }, diagnostics := hfindings }
    | config =>
      refine { hfits with entities := { hfits.entities with }, diagnostics := fun f hf => ?_ }
      simp only [complete, List.mem_append] at hf
      rcases hf with (hf | hf) | hf
      · exact fitsWhereRead_of_fits (fits_syntaxFindings ht hf)
      · exact hfindings f hf
      · exact fitsWhereRead_of_fits (Suppression.fits_complaints ht hf)

theorem fitsAsRead_of_orbWithin {depth : Nat} (ht : AllRead g Tree.LiesInText t)
    (hd : ofTreeWith (Document.orbWithin g depth) kind t = .ok d) : FitsAsRead g t d := by
  induction depth generalizing t kind d with
  | zero => exact fitsAsRead_of_ofTreeWith ht.self (fun _ _ _ h => by cases h) hd
  | succ depth ih =>
    exact fitsAsRead_of_ofTreeWith ht.self (fun text htext _ h => ih (ht.handedOn htext) h) hd

end Read

end PipelineLint
