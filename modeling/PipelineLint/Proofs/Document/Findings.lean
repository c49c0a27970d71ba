import PipelineLint.Proofs.Document.Defaults
import PipelineLint.Proofs.Yaml.Anchors

/-! # What reading finds

The findings of reading entities are of five kinds, in the orbs of a document too. What is found besides is about the
form of the text and about its comments, in configurations only. So an alias without an anchor is found once in a
configuration: `filter_unknownAnchor`.
-/

namespace PipelineLint

namespace Reads

variable {α β σ : Type} {P Q : Diagnostic → Prop}

private theorem finds_notes {ds : List Diagnostic} (hds : ∀ d ∈ ds, P d) : Finds P (notes ds) := by
  rintro b found h
  cases h
  exact hds

theorem Finds.mono {x : Reads α} (hx : Finds P x) (h : ∀ d, P d → Q d) : Finds Q x :=
  fun a found ha d hd => h d (hx a found ha d hd)

theorem finds_through {f : σ → α → Reads σ} {xs : List α} (hf : ∀ s x, Finds P (f s x)) (s : σ) :
    Finds P (through f s xs) := by
  induction xs generalizing s with
  | nil => exact finds_pure _
  | cons x xs ih => exact (hf s x).bind fun s' => ih s'

end Reads

namespace Read

open Yaml Reads Check

/-- The kinds of what is found in reading entities. -/
def readingCodes : List Code := [.missingValue, .invalidValue, .emptySection, .duplicate, .deprecatedKey]

/-- What is found in reading is of these kinds. -/
abbrev FindsRead {α : Type} (x : Reads α) : Prop := Finds (fun d => isOf readingCodes d = true) x

variable {v : View}

theorem findsRead_note {d : Diagnostic} (hd : isOf readingCodes d = true) : FindsRead (note d) := finds_note hd

theorem findsRead_of_lacksValue {α : Type} {x : Reads α} (h : Finds LacksValue x) : FindsRead x := by
  refine h.mono fun d hd => ?_
  rw [isOf, show d.code = some .missingValue from hd]
  rfl

theorem findsRead_steps (n : Node) : FindsRead (readSteps v n) := findsRead_of_lacksValue ((findsMissing v _).steps n)

private theorem findsRead_step (i : Item) :
    FindsRead (readStep v i) := findsRead_of_lacksValue ((findsMissing v _).step i)

theorem findsRead_assignment (p : Pair) : FindsRead (readAssignment v p) :=
  findsRead_of_lacksValue ((findsMissing v _).assignment p)

private theorem findsRead_assignments (n : Node) : FindsRead (readAssignments v n) :=
  findsRead_of_lacksValue ((findsMissing v _).assignments _)

theorem findsRead_insertFirst {α : Type} (m : NameMap α) (name : String) (entity : α) (nameRange : α → Range)
    (message : String) : FindsRead (insertFirst m name entity nameRange message) := by
  rw [insertFirst]
  split
  · exact finds_pure _
  · exact (findsRead_note rfl).bind fun _ => (findsRead_note rfl).bind fun _ => finds_pure _

private theorem findsRead_defaultFor (type : ParameterType) (p : Pair) : FindsRead (defaultFor v type p) := by
  have hsteps (n : Node) : FindsRead (stepsDefault v n) := by
    refine (finds_each fun i => ?_).bind fun _ => finds_pure _
    split
    · exact findsRead_step i
    · exact (findsRead_note rfl).bind fun _ => finds_pure _
  rw [defaultFor.eq_def]
  cases type
  case steps =>
    dsimp only
    split
    · exact finds_pure _
    · exact (hsteps _).bind fun _ => finds_pure _
  all_goals exact finds_pure _

private theorem findsRead_parameterField (parameter : Parameter) (p : Pair) :
    FindsRead (parameterField v parameter p) := by
  unfold parameterField
  split
  · exact finds_pure _
  · split
    · exact finds_pure _
    · exact finds_pure _
  · refine (findsRead_defaultFor _ p).bind fun found => ?_
    cases found with
    | none => exact finds_pure _
    | some type => exact finds_pure _
  · exact finds_pure _

theorem findsRead_parameters (n : Node) : FindsRead (parameters v n) := by
  refine (finds_each fun p => ?_).bind fun _ => finds_pure _
  unfold parameter
  split
  · dsimp only
    split
    · exact finds_pure _
    · refine (finds_through findsRead_parameterField _).bind fun declared => ?_
      split
      · exact finds_pure _
      · exact (findsRead_note rfl).bind fun _ => finds_pure _
  · exact finds_pure _

private theorem findsRead_executors (n : Node) : FindsRead (executors v n) := by
  refine finds_through (fun found p => ?_) _
  split
  · refine Finds.bind (finds_through (fun executor p => ?_) _) fun body => findsRead_insertFirst _ _ _ _ _
    split
    · split
      · exact finds_pure _
      · exact (findsRead_parameters _).bind fun _ => finds_pure _
    · exact finds_pure _
  · exact finds_pure _

private theorem findsRead_executorUse (p : Pair) : FindsRead (executorUse v p) := by
  unfold executorUse
  split
  · exact finds_pure _
  · split
    · exact finds_pure _
    · refine finds_through (fun use field => ?_) _
      split
      · exact finds_pure _
      · refine (findsRead_assignment field).bind fun found => ?_
        cases found with
        | none => exact finds_pure _
        | some a => exact finds_pure _

private theorem findsRead_commandField (command : Command) (p : Pair) : FindsRead (commandField v command p) := by
  unfold commandField
  split
  · exact finds_pure _
  · split
    · exact finds_pure _
    · exact (findsRead_steps _).bind fun _ => finds_pure _
    · exact (findsRead_parameters _).bind fun _ => finds_pure _
    · exact finds_pure _

private theorem findsRead_commands (n : Node) : FindsRead (commands v n) := by
  have hcommand (p : Pair) : FindsRead (command v p) := by
    unfold command
    split
    · exact (finds_through findsRead_commandField _).bind fun _ => finds_pure _
    · exact finds_pure _
  refine finds_through (fun found p => (hcommand p).bind fun read => ?_) _
  cases read with
  | none => exact finds_pure _
  | some c =>
    dsimp only
    split
    · exact finds_pure _
    · exact findsRead_insertFirst _ _ _ _ _

private theorem findsRead_jobField (job : Job) (p : Pair) : FindsRead (jobField v job p) := by
  unfold jobField
  dsimp only
  split
  · exact (findsRead_executorUse p).bind fun _ => finds_pure _
  split
  · exact finds_pure _
  · split
    case h_5 =>
      split
      · exact finds_pure _
      · exact finds_pure _
    case h_7 => exact (findsRead_steps _).bind fun _ => finds_pure _
    case h_8 => exact (findsRead_parameters _).bind fun _ => finds_pure _
    all_goals exact finds_pure _

private theorem findsRead_jobs (n : Node) : FindsRead (jobs v n) := by
  have hjob (p : Pair) : FindsRead (job v p) := by
    unfold job
    split
    · refine (finds_through findsRead_jobField _).bind fun read => ?_
      split
      · exact finds_pure _
      · exact finds_pure _
    · exact finds_pure _
  refine finds_through (fun found p => (hjob p).bind fun read => ?_) _
  cases read with
  | none => exact finds_pure _
  | some j => exact findsRead_insertFirst _ _ _ _ _

private theorem findsRead_jobUseField (use : JobUse) (p : Pair) : FindsRead (jobUseField v use p) := by
  unfold jobUseField
  split
  · exact finds_pure _
  · split
    case h_9 =>
      split
      · exact finds_pure _
      · exact (findsRead_assignments _).bind fun _ => finds_pure _
    case h_10 => exact (findsRead_steps _).bind fun _ => finds_pure _
    case h_11 => exact (findsRead_steps _).bind fun _ => finds_pure _
    case h_14 =>
      refine (findsRead_assignment p).bind fun found => ?_
      cases found with
      | none => exact finds_pure _
      | some a => exact finds_pure _
    all_goals exact finds_pure _

private theorem findsRead_jobUse (i : Item) : FindsRead (jobUse v i) := by
  unfold jobUse
  dsimp only
  split
  · exact finds_pure _
  · split
    · exact finds_pure _
    · split
      · exact finds_pure _
      · split
        · exact finds_pure _
        · exact finds_through findsRead_jobUseField _

private theorem findsRead_workflows (version : Float) (n : Node) : FindsRead (workflows v version n) := by
  have hfield (workflow : Workflow) (p : Pair) : FindsRead (workflowField v workflow p) := by
    unfold workflowField
    split
    · exact finds_pure _
    · split
      · exact (finds_each findsRead_jobUse).bind fun _ => finds_pure _
      · exact finds_pure _
      · exact finds_pure _
  have hworkflow (p : Pair) : FindsRead (workflow v p) := by
    unfold workflow
    split
    · exact (finds_through hfield _).bind fun _ => finds_pure _
    · exact finds_pure _
  refine finds_through (fun found p => ?_) _
  split
  · split
    · exact (findsRead_note rfl).bind fun _ => finds_pure _
    · exact finds_pure _
  · refine (hworkflow p).bind fun read => ?_
    cases read with
    | none => exact finds_pure _
    | some w => exact findsRead_insertFirst _ _ _ _ _

variable {nested : List Char → Except Endless Document} {kind : DocumentKind} {tree : Tree} {d : Document}

private theorem findsRead_orbs (hnested : ∀ text d, nested text = .ok d → Coded readingCodes d.diagnostics) (n : Node) :
    FindsRead (orbs v nested n) := by
  have horb (p : Pair) : FindsRead (orb v nested p) := by
    unfold orb
    split
    · dsimp only
      split
      · exact finds_pure _
      · split
        · exact finds_pure _
        · split
          · exact finds_endless
          · next document hdocument => exact (finds_notes (hnested _ _ hdocument)).bind fun _ => finds_pure _
      · exact finds_pure _
    · exact finds_pure _
  refine finds_through (fun found p => (horb p).bind fun read => ?_) _
  rcases read with _ | ⟨use, _ | inner⟩
  all_goals exact finds_pure _

theorem findsRead_contents (hnested : ∀ text d, nested text = .ok d → Coded readingCodes d.diagnostics)
    (kind : DocumentKind) (tree : Tree) : FindsRead (contents nested kind tree) := by
  have hsection (v : View) (d : Document) (name : String) (p : Pair) : FindsRead (readSection v nested d name p) := by
    unfold readSection
    dsimp only
    split
    · exact finds_pure _
    · exact finds_pure _
    · exact (findsRead_orbs hnested _).bind fun _ => finds_pure _
    · exact (findsRead_note rfl).bind fun _ => finds_pure _
    · exact (findsRead_executors _).bind fun _ => finds_pure _
    · exact (findsRead_note rfl).bind fun _ => finds_pure _
    · exact (findsRead_commands _).bind fun _ => finds_pure _
    · exact finds_pure _
    · exact (findsRead_jobs _).bind fun _ => finds_pure _
    · exact (findsRead_parameters _).bind fun _ => finds_pure _
    · exact (findsRead_note rfl).bind fun _ => finds_pure _
    · exact (findsRead_workflows _ _).bind fun _ => finds_pure _
    · exact finds_pure _
  unfold contents
  dsimp only
  split
  · refine Finds.bind (finds_through (fun d name => ?_) _) fun _ => finds_pure _
    split
    · exact hsection _ _ _ _
    · exact finds_pure _
  · exact finds_pure _

/-- Of an orb nothing is found but what is found in reading its entities. -/
theorem coded_of_orbWithin {g : Grammar} {depth : Nat} {text : List Char}
    (hd : Document.orbWithin g depth text = .ok d) :
    Coded readingCodes d.diagnostics := by
  induction depth generalizing text d with
  | zero => cases hd
  | succ depth ih =>
    rw [Document.orbWithin, ofTreeWith] at hd
    split at hd
    · cases hd
    · next read found hread =>
      cases hd
      exact findsRead_contents (fun _ _ => ih) _ _ read found hread

/-- What is found in comments is about their ranges. -/
theorem coded_complaints (t : Tree) :
    Coded [.nestedIgnore, .unmatchedIgnoreEnd, .unclosedIgnore] (Suppression.ofTree t).2 := by
  have hscan : Coded [.nestedIgnore, .unmatchedIgnoreEnd, .unclosedIgnore]
      ((Suppression.comments t).foldl Suppression.Scan.comment {}).findings := by
    refine List.foldlRecOn (motive := fun s : Suppression.Scan =>
      Coded [.nestedIgnore, .unmatchedIgnoreEnd, .unclosedIgnore] s.findings) _ _ coded_nil fun s hs c _ => ?_
    rw [Suppression.Scan.comment]
    split
    · exact hs
    · exact hs
    · exact hs
    · exact hs
    · split
      · exact coded_append.mpr ⟨hs, coded_cons.mpr ⟨rfl, coded_nil⟩⟩
      · exact hs
    · split
      · exact hs
      · exact coded_append.mpr ⟨hs, coded_cons.mpr ⟨rfl, coded_nil⟩⟩
  refine coded_append.mpr ⟨hscan, coded_map.mpr fun _ _ => rfl⟩

/-- Of the findings of a configuration those about aliases without an anchor are one for each such alias. -/
theorem filter_unknownAnchor {g : Grammar} (hd : Document.parseTree g .config tree = .ok d) :
    d.diagnostics.filter (hasCode .unknownAnchor) = (Anchors.ofTree tree).unknown.map fun a =>
      .error .unknownAnchor a.range ("unknown anchor '" ++ a.text ++ "' referenced") := by
  rw [Document.parseTree, ofTreeWith] at hd
  split at hd
  · cases hd
  · next read found hread =>
    cases hd
    have hread : Coded readingCodes found :=
      findsRead_contents (fun _ _ => coded_of_orbWithin) _ _ read found hread
    have htext := Anchors.filter_syntaxFindings (View.ofAnchors tree (.ofTree tree)) (.ofTree tree)
    have hsame : (fun d : Diagnostic => decide (d.code = some .unknownAnchor)) = hasCode .unknownAnchor := by
      funext d
      rw [hasCode, Bool.eq_iff_iff, decide_eq_true_iff, beq_iff_eq]
    rw [hsame] at htext
    simp only [complete, List.filter_append]
    rw [htext, hread.filter_hasCode rfl, (coded_complaints tree).filter_hasCode rfl, List.append_nil, List.append_nil]

end Read

end PipelineLint
