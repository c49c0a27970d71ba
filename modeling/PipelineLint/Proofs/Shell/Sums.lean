import PipelineLint.Concrete.Grammar.Stream
import PipelineLint.Proofs.Shell.Layout

/-! # Coordinates of findings

Lines and columns have 32 bits, and a layout adds to them: those of a command when it is made, those of a finding when
it is reported. `Layout.ofRun?` and `report?` do the same with sums that are only there if they have 32 bits. The layout
of a command can always be made. A finding can be reported if its own coordinates leave room for the text, and the
coordinates of its place start again at zero where they do not: `sums_exact`.
-/

namespace PipelineLint

namespace Text

variable {text line : List Char}

private theorem column_advance_le (p : Position) (cs : List Char) :
    (advance p cs).column ≤ p.column + byteLength cs := by
  induction cs generalizing p with
  | nil => exact Nat.le_refl _
  | cons c cs ih =>
    rw [advance, byteLength_cons]
    refine (ih _).trans ?_
    split <;> dsimp only <;> omega

/-- Lines and columns are no more than the bytes before them. -/
theorem advance_le (cs : List Char) :
    (advance ⟨0, 0⟩ cs).line ≤ byteLength cs ∧ (advance ⟨0, 0⟩ cs).column ≤ byteLength cs := by
  have hcolumn := column_advance_le ⟨0, 0⟩ cs
  rw [line_advance]
  have hline := count_le_byteLength '\n' cs
  rw [← lastLine] at hline
  dsimp only at hcolumn ⊢
  omega

private theorem byteLength_le_of_mem_lines (hline : line ∈ lines text) : byteLength line ≤ byteLength text := by
  have hreturn (first : List Char) : byteLength (dropReturn first) ≤ byteLength first := by
    obtain ⟨tail, htail, -⟩ := exists_dropReturn_append first
    conv_rhs => rw [← htail, byteLength_append]
    exact Nat.le_add_right _ _
  induction text using lines_induction with
  | last first h =>
    rw [lines_of_notMem h] at hline
    split at hline
    · cases hline
    · rw [List.mem_singleton.mp hline]
  | feed first rest h ih =>
    rw [byteLength_append, byteLength_cons]
    rw [lines_feed h] at hline
    rcases List.mem_cons.mp hline with rfl | hline
    · have := hreturn first
      omega
    · have := ih hline
      omega

end Text

namespace Yaml.ScalarText

open Text

private theorem skipped_le (text : List Char) : skipped (lines text) ≤ lastLine text := by
  induction text using lines_induction with
  | last line h =>
    rw [lines_of_notMem h, skipped]
    split
    · simp
    · cases hblank : allBlank line <;> simp [List.findIdx?_cons, hblank]
  | feed first rest h ih =>
    have hlast : lastLine (first ++ '\n' :: rest) = lastLine first + (lastLine rest + 1) := by
      rw [lastLine_append, lastLine, lastLine, lastLine, List.count_cons_self]
    rw [skipped] at ih ⊢
    rw [hlast, lines_feed h, List.findIdx?_cons]
    split
    · simp
    · cases hindex : (lines rest).findIdx? (!allBlank ·) with
      | none => simp
      | some k =>
        rw [hindex] at ih
        simp only [Option.map_some, Option.getD_some] at ih ⊢
        omega

private theorem commonIndent_le_byteLength (text : List Char) : commonIndent (lines text) ≤ byteLength text := by
  by_cases hsolid : ∃ line ∈ lines text, ¬Blanks line
  · obtain ⟨line, hline, hsolid⟩ := hsolid
    have hindent : indentOf line ≤ byteLength line := by
      conv_rhs => rw [← List.takeWhile_append_dropWhile (p := isBlank) (l := line), byteLength_append]
      exact Nat.le_add_right _ _
    exact (commonIndent_le hline hsolid).trans (hindent.trans (byteLength_le_of_mem_lines hline))
  · have hnone : (lines text).filter (!allBlank ·) = [] := by
      refine List.filter_eq_nil_iff.mpr fun line hline => ?_
      have hblank : allBlank line = true := allBlank_iff.mpr (Decidable.by_contra fun h => hsolid ⟨line, hline, h⟩)
      simp [hblank]
    rw [commonIndent, hnone]
    exact Nat.zero_le _

theorem byteLength_afterHeader_lt {raw : List Char} (hne : raw ≠ []) :
    byteLength (afterHeader raw) < byteLength raw := by
  obtain ⟨-, hnil⟩ | ⟨header, -, hraw⟩ := header_cases raw
  · rw [hnil]
    exact byteLength_pos hne
  · conv_rhs => rw [hraw, byteLength_append, byteLength_cons]
    have hsize := Char.utf8Size_pos '\n'
    omega

/-- With the line of its header, a block has no more lines before its content than it has bytes. -/
theorem skipped_lt {raw : List Char} (hne : raw ≠ []) : skipped (lines (afterHeader raw)) < byteLength raw :=
  calc skipped (lines (afterHeader raw))
      ≤ lastLine (afterHeader raw) := skipped_le _
    _ ≤ byteLength (afterHeader raw) := count_le_byteLength '\n' _
    _ < byteLength raw := byteLength_afterHeader_lt hne

end Yaml.ScalarText

namespace Shell

open Text Yaml Yaml.ScalarText Read

def sum? (a b : Nat) : Option Nat := if a + b ≤ maxCoordinate then some (a + b) else none

theorem sum?_eq_some_iff {a b c : Nat} : sum? a b = some c ↔ a + b ≤ maxCoordinate ∧ a + b = c := by
  rw [sum?, Option.ite_none_right_eq_some, Option.some.injEq]

def IsPlace (p : Position) : Prop := p.line ≤ maxCoordinate ∧ p.column ≤ maxCoordinate

namespace Layout

def ofBlock? (start : Position) (raw : List Char) : Option Layout := do
  let below ← sum? start.line 1
  let firstLine ← sum? below (skipped ((lines raw).drop 1))
  pure { ofBlock start raw with firstLine }

/-- The layout of the command of a step, with checked sums. -/
def ofRun? (r : Run) : Option Layout :=
  match r.rawCommand.toList with
  | '|' :: cs => ofBlock? r.commandRange.start ('|' :: cs)
  | '>' :: cs => ofBlock? r.commandRange.start ('>' :: cs)
  | raw => do
    let isQuoted := raw.head? == some '"' || raw.head? == some '\''
    let firstColumn ← sum? r.commandRange.start.column (if isQuoted then 1 else 0)
    pure { firstLine := r.commandRange.start.line, firstColumn, indent := 0, isFolded := false }

private theorem ofRun_cases (r : Run) :
    (r.rawCommand.toList ≠ [] ∧ ofRun r = ofBlock r.commandRange.start r.rawCommand.toList ∧
      ofRun? r = ofBlock? r.commandRange.start r.rawCommand.toList) ∨
    ∃ mark ≤ byteLength r.rawCommand.toList,
      ofRun r = ⟨r.commandRange.start.line, wrap (r.commandRange.start.column + mark), 0, false⟩ ∧
      ofRun? r = (sum? r.commandRange.start.column mark).map fun column =>
        ⟨r.commandRange.start.line, column, 0, false⟩ := by
  by_cases hhead : r.rawCommand.toList.head? = some '|' ∨ r.rawCommand.toList.head? = some '>'
  · refine .inl ⟨fun hnil => by simp [hnil] at hhead, ?_⟩
    rcases hhead with hhead | hhead
    · obtain ⟨cs, hraw⟩ := List.head?_eq_some_iff.mp hhead
      rw [ofRun, ofRun?, hraw]
      exact ⟨rfl, rfl⟩
    · obtain ⟨cs, hraw⟩ := List.head?_eq_some_iff.mp hhead
      rw [ofRun, ofRun?, hraw]
      exact ⟨rfl, rfl⟩
  · refine .inr ⟨if r.rawCommand.toList.head? == some '"' || r.rawCommand.toList.head? == some '\'' then 1 else 0, ?_,
      ?_, ?_⟩
    · cases hraw : r.rawCommand.toList with
      | nil => exact Nat.zero_le _
      | cons c cs =>
        have hpos := byteLength_pos (List.cons_ne_nil c cs)
        split <;> omega
    · rw [ofRun]
      dsimp only
      split
      · next hraw => exact absurd (.inl (by rw [hraw]; rfl)) hhead
      · next hraw => exact absurd (.inr (by rw [hraw]; rfl)) hhead
      · rfl
    · rw [ofRun?]
      split
      · next hraw => exact absurd (.inl (by rw [hraw]; rfl)) hhead
      · next hraw => exact absurd (.inr (by rw [hraw]; rfl)) hhead
      · rw [Option.map_eq_bind]
        rfl

/-- The place in the document of a line and a column of the script, with checked sums. -/
def position? (l : Layout) (line column : Nat) : Option Position :=
  let offset := line - 2
  let right := column - 1
  if l.isFolded then do
    let column ← sum? l.firstColumn right
    pure ⟨l.firstLine, column⟩
  else do
    let line ← sum? l.firstLine offset
    let column ← sum? (if offset = 0 then l.firstColumn else l.indent) right
    pure ⟨line, column⟩

/-- The place in the document of a line and a column of the script, however large they are. -/
def exact (l : Layout) (line column : Nat) : Position :=
  if l.isFolded then ⟨l.firstLine, l.firstColumn + (column - 1)⟩
  else ⟨l.firstLine + (line - 2), (if line - 2 = 0 then l.firstColumn else l.indent) + (column - 1)⟩

variable {l : Layout} {start p : Position} {raw : List Char} {line column : Nat}

theorem wrap_of_le {n : Nat} (h : n ≤ maxCoordinate) : wrap n = n := Nat.mod_eq_of_lt (Nat.lt_succ_of_le h)

theorem position_eq (hfirst : l.firstLine ≤ maxCoordinate) :
    l.position line column = wrapped (l.exact line column) := by
  rw [position, exact, wrapped]
  split
  · rw [wrap_of_le hfirst]
  · rfl

theorem position?_eq_some_iff (hfirst : l.firstLine ≤ maxCoordinate) :
    l.position? line column = some p ↔ IsPlace (l.exact line column) ∧ l.exact line column = p := by
  rw [position?, exact, IsPlace]
  split
  · simp only [bind, Option.bind_eq_some_iff, sum?_eq_some_iff, pure, Option.some.injEq]
    constructor
    · rintro ⟨_, ⟨hcolumn, rfl⟩, rfl⟩
      exact ⟨⟨hfirst, hcolumn⟩, rfl⟩
    · rintro ⟨⟨-, hcolumn⟩, rfl⟩
      exact ⟨_, ⟨hcolumn, rfl⟩, rfl⟩
  · simp only [bind, Option.bind_eq_some_iff, sum?_eq_some_iff, pure, Option.some.injEq]
    constructor
    · rintro ⟨_, ⟨hline, rfl⟩, _, ⟨hcolumn, rfl⟩, rfl⟩
      exact ⟨⟨hline, hcolumn⟩, rfl⟩
    · rintro ⟨⟨hline, hcolumn⟩, rfl⟩
      exact ⟨_, ⟨hline, rfl⟩, _, ⟨hcolumn, rfl⟩, rfl⟩

theorem ofBlock?_eq (h : start.line + 1 + skipped (lines (afterHeader raw)) ≤ maxCoordinate) :
    ofBlock? start raw = some (ofBlock start raw) := by
  have hbelow : sum? start.line 1 = some (start.line + 1) := sum?_eq_some_iff.mpr ⟨by omega, rfl⟩
  have hfirst := sum?_eq_some_iff.mpr ⟨h, rfl⟩
  rw [ofBlock?, hbelow, List.drop_one, tail_lines, Option.bind_eq_bind, Option.bind_some, hfirst, ofBlock_eq,
    wrap_of_le h]
  rfl

end Layout

/-- The command of a run step is written in a text where it is said to be. A step without a command has an empty one at
the start. -/
def WrittenIn (source : List Char) (r : Run) : Prop :=
  ∃ before after, source = before ++ (r.rawCommand.toList ++ after) ∧ r.commandRange.start = advance ⟨0, 0⟩ before

variable {source : List Char} {t : Tree} {r : Run}

private theorem writtenIn_of_commandFrom {node : Node} (hnode : node.Lies t.source)
    (hraw : r.rawCommand = String.ofList ((View.ofTree t).rawText node))
    (hrange : r.commandRange = node.range) : WrittenIn t.source r := by
  obtain ⟨before, after, hsource, hstart, -⟩ := hnode.exists_append
  refine ⟨before, after, ?_, ?_⟩
  · rw [hraw, String.toList_ofList]
    exact hsource
  · rw [hrange, Node.range, hstart, Mark.position_after]
    rfl

private theorem writtenIn_run (ht : t.LiesInText) (p : Pair) {value : Node} (isDeploy : Bool)
    (hvalue : value ∈ t.root.preorder) : WrittenIn t.source (Read.run (.ofTree t) p value isDeploy) := by
  rw [Read.run]
  dsimp only
  split
  · exact writtenIn_of_commandFrom (ht _ hvalue) rfl rfl
  · next mapping hmapping =>
    refine List.foldlRecOn _ _ ⟨[], t.source, rfl, rfl⟩ fun r hr q hq => ?_
    rw [runField]
    split
    · exact hr
    · next inner hinner =>
      dsimp only
      split
      case h_2 =>
        have hbelow := (View.below_of_mem_pairs hq).above (View.reaches_mapping? hmapping)
        have hinner := View.mem_preorder_of_reaches hvalue (hbelow.value hinner).to_reflTransGen
        exact writtenIn_of_commandFrom (ht _ hinner) rfl rfl
      all_goals exact hr

/-- The layout of a command in a text lies within the bytes of the text, and is made without a sum that is too large. -/
theorem WrittenIn.ofRun (h : WrittenIn source r) (hsize : byteLength source ≤ maxCoordinate) :
    Layout.ofRun? r = some (Layout.ofRun r) ∧ (Layout.ofRun r).firstLine ≤ byteLength source ∧
      (Layout.ofRun r).firstColumn ≤ byteLength source ∧ (Layout.ofRun r).indent ≤ byteLength source := by
  obtain ⟨before, after, hsource, hstart⟩ := h
  obtain ⟨hline, hcolumn⟩ := advance_le before
  rw [← hstart] at hline hcolumn
  have hlength : byteLength before + byteLength r.rawCommand.toList ≤ byteLength source := by
    rw [hsource, byteLength_append, byteLength_append]
    omega
  rcases Layout.ofRun_cases r with ⟨hne, hrun, hrun?⟩ | ⟨mark, hmark, hrun, hrun?⟩
  · have hskipped := skipped_lt hne
    have hindent := commonIndent_le_byteLength (afterHeader r.rawCommand.toList)
    have hafter := byteLength_afterHeader_lt hne
    have hfirst : r.commandRange.start.line + 1 + skipped (lines (afterHeader r.rawCommand.toList)) ≤
        byteLength source := by omega
    rw [hrun, hrun?, Layout.ofBlock?_eq (hfirst.trans hsize), Layout.ofBlock_eq, Layout.wrap_of_le (hfirst.trans hsize)]
    exact ⟨rfl, hfirst, by dsimp only; omega, by dsimp only; omega⟩
  · have hfirst : r.commandRange.start.column + mark ≤ byteLength source := by omega
    rw [hrun, hrun?, sum?_eq_some_iff.mpr ⟨hfirst.trans hsize, rfl⟩, Layout.wrap_of_le (hfirst.trans hsize)]
    exact ⟨rfl, by dsimp only; omega, hfirst, Nat.zero_le _⟩

/-- What is said about a finding, with checked sums. -/
def report? (l : Layout) (f : Finding) : Option Diagnostic := do
  let start ← l.position? f.line f.column
  let stop ← l.position? f.endLine f.endColumn
  pure { report l f with range := ⟨start, if stop < start then start else stop⟩ }

/-- The place of a finding goes forward. -/
theorem start_report_le (l : Layout) (f : Finding) : (report l f).range.start ≤ (report l f).range.stop := by
  show l.position f.line f.column ≤ if l.position f.endLine f.endColumn < l.position f.line f.column then
    l.position f.line f.column else l.position f.endLine f.endColumn
  split
  · exact Position.le_refl _
  · next h =>
    rw [Position.lt_def] at h
    rw [Position.le_def]
    omega

theorem report?_eq_some_iff {l : Layout} (hfirst : l.firstLine ≤ maxCoordinate) {f : Finding} {d : Diagnostic} :
    report? l f = some d ↔
      (IsPlace (l.exact f.line f.column) ∧ IsPlace (l.exact f.endLine f.endColumn)) ∧ report l f = d := by
  have hplace {p : Position} (hp : IsPlace p) : Layout.wrapped p = p := by
    rw [Layout.wrapped, Layout.wrap_of_le hp.1, Layout.wrap_of_le hp.2]
  have hreport (hstart : IsPlace (l.exact f.line f.column)) (hstop : IsPlace (l.exact f.endLine f.endColumn)) :
      report l f = { report l f with range := ⟨l.exact f.line f.column,
        if l.exact f.endLine f.endColumn < l.exact f.line f.column then l.exact f.line f.column
        else l.exact f.endLine f.endColumn⟩ } := by
    conv_lhs => rw [report, Layout.position_eq hfirst, Layout.position_eq hfirst, hplace hstart, hplace hstop]
    rfl
  simp only [report?, bind, Option.bind_eq_some_iff, Layout.position?_eq_some_iff hfirst, pure, Option.some.injEq]
  constructor
  · rintro ⟨_, ⟨hstart, rfl⟩, _, ⟨hstop, rfl⟩, rfl⟩
    exact ⟨⟨hstart, hstop⟩, hreport hstart hstop⟩
  · rintro ⟨⟨hstart, hstop⟩, rfl⟩
    exact ⟨_, ⟨hstart, rfl⟩, _, ⟨hstop, rfl⟩, (hreport hstart hstop).symm⟩

private theorem Layout.isPlace_exact {l : Layout} {n : Nat} (hfirst : l.firstLine ≤ n ∧ l.firstColumn ≤ n)
    (hindent : l.indent ≤ n) (line column : Nat) (hline : n + line ≤ maxCoordinate)
    (hcolumn : n + column ≤ maxCoordinate) : IsPlace (l.exact line column) := by
  rw [exact]
  split
  · constructor <;> dsimp only <;> omega
  · constructor <;> dsimp only
    · omega
    · split <;> omega

/-- Where the nodes of a tree lie in the text, the layout of the command of a run step is made without a sum that is too
large. The place of a finding goes
forward. The finding is reported without a sum that is too large just if the places that both of its ends stand for
have coordinates of 32 bits, and so if its own coordinates leave room for the bytes of the text. -/
theorem sums_exact (t : Tree) (ht : t.LiesInText) (hsize : byteLength t.source ≤ maxCoordinate) (p : Pair)
    (value : Node) (isDeploy : Bool) (hvalue : value ∈ t.root.preorder) :
    let r := Read.run (.ofTree t) p value isDeploy
    let l := Layout.ofRun r
    Layout.ofRun? r = some l ∧ ∀ f : Finding, (report l f).range.start ≤ (report l f).range.stop ∧
      (∀ d, report? l f = some d ↔
        (IsPlace (l.exact f.line f.column) ∧ IsPlace (l.exact f.endLine f.endColumn)) ∧ report l f = d) ∧
      ((∀ k ∈ [f.line, f.column, f.endLine, f.endColumn], byteLength t.source + k ≤ maxCoordinate) →
        report? l f = some (report l f)) := by
  intro r l
  obtain ⟨hlayout, hline, hcolumn, hindent⟩ := (writtenIn_run ht p isDeploy hvalue).ofRun hsize
  have hfirst : l.firstLine ≤ maxCoordinate := hline.trans hsize
  refine ⟨hlayout, fun f => ⟨start_report_le l f, fun d => report?_eq_some_iff hfirst, fun hroom => ?_⟩⟩
  have hplace := Layout.isPlace_exact ⟨hline, hcolumn⟩ hindent
  have hstart := hplace f.line f.column (hroom _ (by simp)) (hroom _ (by simp))
  have hstop := hplace f.endLine f.endColumn (hroom _ (by simp)) (hroom _ (by simp))
  exact (report?_eq_some_iff hfirst).mpr ⟨⟨hstart, hstop⟩, rfl⟩

/-- The body of a run step. -/
def namedEcho : Tree := Grammar.strict.tree "name: greet\ncommand: echo $1\n".toList

def namedEchoStep : Run := Read.run (.ofTree namedEcho) default namedEcho.top false

/-- A finding about the last word of the command. -/
def wordFinding : Finding := ⟨2, 2, 6, 8, .info, 2086, "Double quote."⟩

theorem sums_exact_namedEcho : namedEcho.LiesInText ∧ byteLength namedEcho.source ≤ maxCoordinate ∧
    Layout.ofRun? namedEchoStep = some (Layout.ofRun namedEchoStep) ∧
    report? (Layout.ofRun namedEchoStep) wordFinding = some (report (Layout.ofRun namedEchoStep) wordFinding) ∧
    (report (Layout.ofRun namedEchoStep) wordFinding).range = ⟨⟨1, 14⟩, ⟨1, 16⟩⟩ := by
  have hlies : namedEcho.LiesInText := by decide +kernel
  have hsize : byteLength namedEcho.source ≤ maxCoordinate := by decide
  obtain ⟨hlayout, hfindings⟩ :=
    sums_exact namedEcho hlies hsize default namedEcho.top false (Tree.top_mem_preorder _)
  exact ⟨hlies, hsize, hlayout, (hfindings wordFinding).2.2 (by decide), by decide +kernel⟩

def lastColumnFinding : Finding := { wordFinding with column := maxCoordinate, endColumn := maxCoordinate }

/-- The place of a finding in the last column lies past all columns, so it starts again and is told before that of the
command. -/
theorem sums_overflow : lastColumnFinding.column ≤ maxCoordinate ∧
    (report? (Layout.ofRun namedEchoStep) lastColumnFinding).isNone = true ∧
    namedEchoStep.commandRange = ⟨⟨1, 9⟩, ⟨1, 16⟩⟩ ∧
    (report (Layout.ofRun namedEchoStep) lastColumnFinding).range = ⟨⟨1, 7⟩, ⟨1, 7⟩⟩ := by
  decide +kernel

end Shell

end PipelineLint
