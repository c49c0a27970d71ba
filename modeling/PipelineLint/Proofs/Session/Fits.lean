import PipelineLint.Concrete.Host
import PipelineLint.Proofs.Check.Fits
import PipelineLint.Proofs.Session.History

/-! # Findings of an analysis fit where they are found

If the nodes of the trees that are read lie in their texts, every finding of an analysis, with its labels and the edits
of its quick fixes, fits the text that was read where it was found (`findings_fit_where_read`): the text of the
configuration, or the one that was read for a local orb. A line feed is added to the latter, and what stands last in the
body ends after it. Where that is also the end of the configuration, the finding ends on a line which the configuration
does not have (`finding_ends_beyond_text`).
-/

namespace PipelineLint

open Text Check Read

namespace Check

variable {last : Nat} {spec : ImageSpec}

private theorem fits_offerTags {d : Diagnostic} (tags : List String) (hspec : spec.imageRange.Fits last)
    (hd : d.Fits last) :
    (offerTags spec tags d).Fits last :=
  List.foldlRecOn (motive := Diagnostic.Fits last) _ _ hd fun _ hoffered _ _ => hoffered.withReplacement hspec _ _

private theorem fits_imageTags (tags : List String) (hspec : spec.imageRange.Fits last) :
    AllFit last (imageTags spec tags) := by
  unfold imageTags
  split
  · simp [fits_offerTags, hspec]
  split
  · simp [fits_offerTags, hspec]
  · exact each_nil

end Check

namespace Analyzer

variable {a : Analyzer} {last : Nat} {g : Yaml.Grammar} {t : Yaml.Tree}

private theorem fits_checkImage {spec : ImageSpec} (hspec : spec.imageRange.Fits last) (s : Session) :
    AllFit last (a.checkImage s spec).1 := by
  unfold checkImage
  split
  · exact each_nil
  · simp [imageNotFound, hspec]
  · split
    · exact each_nil
    · exact fits_imageTags _ hspec

private theorem fits_answer {notice : Notice} (h : notice.Fits last) (s : Session) :
    AllFit last (a.answer s notice).1 := by
  cases notice with
  | finding d => exact each_singleton.mpr h
  | image spec => exact fits_checkImage h s
  | script run => cases h

private theorem fitsWhereRead_answers {notices : List Notice} (h : Each (Notice.FitsWhereRead g t) notices)
    (s : Session) :
    Each (FitsWhereRead g t) (a.answers s notices).1 := by
  induction notices generalizing s with
  | nil => exact each_nil
  | cons notice notices ih =>
    obtain ⟨⟨depth, inner, hread, hfits⟩, hnotices⟩ := each_cons.mp h
    rw [answers]
    exact each_append.mpr ⟨fun d hd => ⟨depth, inner, hread, fits_answer hfits s d hd⟩, ih hnotices _⟩

/-- Without a shell linter each finding of an analysis of a document has a tree that was read where it was found, and
fits its text: its range, those of its labels and those of its edits go forward and lie on lines of that text. It is the
tree that the document was read from, or that of an orb, whose text has at most one more line for each orb around the
finding. So the findings fit the text of the document itself, unless that of an orb has more lines. -/
theorem findings_fit_where_read {s : Session} {kind : DocumentKind} {depth : Nat} {d : Document}
    (ht : AllRead g Yaml.Tree.LiesInText t) (hscripts : a.settings.lintsScripts = false)
    (hd : ofTreeWith (Document.orbWithin g depth) kind t = .ok d) :
    (∀ f ∈ (a.check s d).1.diagnostics, ∃ deep inner, ReadIn g deep t inner ∧
      lastLine inner.source ≤ lastLine t.source + deep ∧ f.Fits (lastLine inner.source)) ∧
    ((∀ deep inner, ReadIn g deep t inner → lastLine inner.source ≤ lastLine t.source) →
      ∀ f ∈ (a.check s d).1.diagnostics, f.Fits (lastLine t.source)) := by
  have hread := fitsAsRead_of_orbWithin ht hd
  have hfits : Each (FitsWhereRead g t) (a.check s d).1.diagnostics := by
    rw [check]
    refine each_append.mpr ⟨hread.diagnostics, fitsWhereRead_answers ?_ _⟩
    exact fits_document hscripts ht.self (tree_of_ofTreeWith hd) hread.toFitsText
  refine ⟨fun f hf => ?_, fun hlines f hf => ?_⟩
  · obtain ⟨deep, inner, hinner, hfit⟩ := hfits f hf
    exact ⟨deep, inner, hinner, hinner.lastLine_le, hfit⟩
  · obtain ⟨deep, inner, hinner, hfit⟩ := hfits f hf
    exact hfit.mono (hlines deep inner hinner)

/-- A configuration that ends with the steps of a job of a local orb. -/
def approvalInOrb : Yaml.Tree := Yaml.Grammar.strict.tree
  "orbs:\n  tools:\n    jobs:\n      wait:\n        type: approval\n        steps:\n          - checkout\n".toList

theorem allRead_approvalInOrb : AllRead .strict Yaml.Tree.LiesInText approvalInOrb := by
  have hwithin : AllReadWithin .strict Yaml.Tree.LiesInText 2 approvalInOrb := by decide +kernel
  exact allRead_of_within hwithin

theorem findings_fit_where_read_approvalInOrb : AllRead .strict Yaml.Tree.LiesInText approvalInOrb ∧
    Analyzer.standard.settings.lintsScripts = false ∧
    ∃ d, Document.parseTree .strict .config approvalInOrb = .ok d ∧
      ∀ f ∈ (Analyzer.standard.check {} d).1.diagnostics, ∃ deep inner, ReadIn .strict deep approvalInOrb inner ∧
        lastLine inner.source ≤ lastLine approvalInOrb.source + deep ∧ f.Fits (lastLine inner.source) := by
  have hread : (Document.parseTree .strict .config approvalInOrb).toOption.isSome = true := by decide +kernel
  obtain ⟨d, hd⟩ := Option.isSome_iff_exists.mp hread
  have hd := eq_ok_of_toOption hd
  exact ⟨allRead_approvalInOrb, rfl, d, hd, (findings_fit_where_read allRead_approvalInOrb rfl hd).1⟩

/-- A finding about the last steps of the configuration, which has seven line feeds, ends on the line after its last
one, although the nodes of all trees that are read lie in their texts. -/
theorem finding_ends_beyond_text : AllRead .strict Yaml.Tree.LiesInText approvalInOrb ∧
    ∃ d, Document.parseTree .strict .config approvalInOrb = .ok d ∧
      ∃ f ∈ (Analyzer.standard.check {} d).1.diagnostics, f.range = ⟨⟨5, 8⟩, ⟨8, 0⟩⟩ ∧
        lastLine approvalInOrb.source = 7 ∧ ¬ f.Fits (lastLine approvalInOrb.source) := by
  have hranges : ((Document.parseTree .strict .config approvalInOrb).toOption.map fun d =>
      (Analyzer.standard.check {} d).1.diagnostics.map (·.range)) = some [⟨⟨1, 2⟩, ⟨1, 7⟩⟩, ⟨⟨5, 8⟩, ⟨8, 0⟩⟩] := by
    decide +kernel
  obtain ⟨d, hd, hfound⟩ := Option.map_eq_some_iff.mp hranges
  have hmem : (⟨⟨5, 8⟩, ⟨8, 0⟩⟩ : Range) ∈ (Analyzer.standard.check {} d).1.diagnostics.map (·.range) := by
    rw [hfound]
    exact List.mem_cons_of_mem _ List.mem_cons_self
  obtain ⟨f, hf, hrange⟩ := List.mem_map.mp hmem
  have hlast : lastLine approvalInOrb.source = 7 := by decide +kernel
  refine ⟨allRead_approvalInOrb, d, eq_ok_of_toOption hd, f, hf, hrange, hlast, fun hfits => ?_⟩
  have hstop := hfits.range.stop
  rw [hrange, hlast] at hstop
  exact absurd hstop (by decide)

end Analyzer

end PipelineLint
