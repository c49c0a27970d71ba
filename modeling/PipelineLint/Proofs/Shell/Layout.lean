import PipelineLint.Concrete.Grammar.Stream
import PipelineLint.Document.Steps
import PipelineLint.Proofs.Text.Lines
import PipelineLint.Proofs.Yaml.BlockScalar
import PipelineLint.Proofs.Yaml.Lies
import PipelineLint.Shell.Layout

/-! # Places of commands in the document

A layout knows the lines of a command from the text of its value alone. Each line of a literal block scalar is a line of
the command, so a character of the command leads back to one of the document: its line is as many lines further down as
the scalar's first line with content is, its column further right by the common indentation (`exists_place`). A layout
says the same of a value that is a literal alone, if the first line with content is indented no deeper than the others;
else the columns of that line fall short by the difference (`command_placed`).
-/

namespace PipelineLint

namespace Yaml.ScalarText

open Text

variable {body : List (List Char)} {text line before after : List Char} {x : Char} {n : Nat}

theorem Cuttable.cutAt (h : Cuttable body) : ∀ line ∈ body, CutAt (commonIndent body) line :=
  fun line hline hsolid => ⟨h line hline hsolid, commonIndent_le hline hsolid⟩

/-- A character of a line without its indentation stands `n` bytes further right in the line. -/
theorem CutAt.exists_place (h : CutAt n line) (hfeed : '\n' ∉ line) (hx : isBlank x = false)
    (heq : dedent n line = before ++ x :: after) : ∃ front, line = front ++ x :: after ∧ solid front = solid before ∧
      ∀ l, advance ⟨l, 0⟩ front = ⟨l + lastLine before, n + (advance ⟨0, 0⟩ before).column⟩ := by
  have hsolid : ¬Blanks line := not_blanks_of_mem_dedent (by rw [heq]; simp) hx
  obtain ⟨cut, hline, hcut, hlength⟩ := h.exists_cut hsolid
  rw [heq, ← List.append_assoc] at hline
  have hfront : '\n' ∉ cut ++ before := by
    rw [hline] at hfeed
    exact fun hmem => hfeed (List.mem_append_left _ hmem)
  have hbefore : '\n' ∉ before := fun hmem => hfront (List.mem_append_right _ hmem)
  refine ⟨cut ++ before, hline, ?_, fun l => ?_⟩
  · rw [solid_append, hcut.solid_eq, List.nil_append]
  · rw [advance_of_notMem hfront, advance_of_notMem hbefore, byteLength_append, hlength, lastLine,
      List.count_eq_zero_of_not_mem hbefore]
    simp

/-- A character of the joined lines of a text, without their indentation, stands on the same line in the text, `n` bytes
further right, and after the same content. -/
theorem exists_place (hcut : ∀ line ∈ lines text, CutAt n line) (hx : isBlank x = false)
    (heq : join ['\n'] ((lines text).map (dedent n)) = before ++ x :: after) :
    ∃ front back, text = front ++ x :: back ∧ solid front = solid before ∧
      ∀ l, advance ⟨l, 0⟩ front = ⟨l + lastLine before, n + (advance ⟨0, 0⟩ before).column⟩ := by
  induction text using lines_induction generalizing before with
  | last line h =>
    rw [lines_of_notMem h] at hcut heq
    split at heq
    · simp [join] at heq
    · next hne =>
      rw [if_neg hne] at hcut
      obtain ⟨front, hline, hplace⟩ := (hcut line (by simp)).exists_place h hx (by simpa [join] using heq)
      exact ⟨front, after, hline, hplace⟩
  | feed first rest h ih =>
    rw [lines_feed h] at hcut heq
    obtain ⟨hfirst, hrest⟩ := List.forall_mem_cons.mp hcut
    obtain ⟨tail, hreturn, -⟩ := exists_dropReturn_append first
    have hshort : '\n' ∉ dropReturn first := fun hmem => h (hreturn ▸ List.mem_append_left tail hmem)
    rcases join_cons_eq_append_cons (by rintro rfl; cases hx) heq with ⟨later, hlater⟩ | ⟨later, rfl, hlater⟩
    · obtain ⟨front, hline, hplace⟩ := hfirst.exists_place hshort hx hlater
      refine ⟨front, later ++ (tail ++ '\n' :: rest), ?_, hplace⟩
      rw [← hreturn, hline, List.append_assoc, List.append_assoc, List.cons_append]
    · obtain ⟨front, back, rfl, hsolid, hplace⟩ := ih hrest hlater
      have hline : '\n' ∉ dedent n (dropReturn first) := fun hmem => hshort (mem_of_mem_dedent hmem)
      refine ⟨first ++ '\n' :: front, back, by simp, ?_, fun l => ?_⟩
      · have hfeed : isBlank '\n' = true := by decide
        rw [solid_append, solid_append, solid_cons_of_isBlank hfeed, solid_cons_of_isBlank hfeed, hsolid,
          hfirst.solid_dedent, solid_dropReturn]
      · rw [advance_feed h, hplace, advance_feed hline, advance_eq ⟨0 + 1, 0⟩, lastLine, lastLine, List.count_append,
          List.count_eq_zero_of_not_mem hline, List.count_cons_self]
        simp [Nat.add_assoc, Nat.add_comm 1]

/-- The number of lines before the first one with content. -/
def skipped (body : List (List Char)) : Nat := (body.findIdx? (!allBlank ·)).getD 0

/-- How much deeper than in common the first line with content is indented. -/
def lead (body : List (List Char)) : Nat :=
  ((body.find? (!allBlank ·)).map indentOf).getD 0 - commonIndent body

/-- Of a line with content what is left of its indentation stands before the content, whatever follows the line. -/
theorem CutAt.takeWhile_join (h : CutAt n line) (hsolid : ¬Blanks line) (parts : List (List Char)) :
    (join ['\n'] (dedent n line :: parts)).takeWhile isBlank = (dedent n line).takeWhile isBlank ∧
      byteLength ((dedent n line).takeWhile isBlank) = indentOf line - n := by
  obtain ⟨cut, hline, hcut, hlength⟩ := h.exists_cut hsolid
  have hne : (dedent n line).dropWhile isBlank ≠ [] := by
    rw [Ne, List.dropWhile_eq_nil_iff]
    refine fun hblanks => hsolid ?_
    rw [hline]
    exact List.forall_mem_append.mpr ⟨hcut, hblanks⟩
  have hindent : indentOf line = n + byteLength ((dedent n line).takeWhile isBlank) := by
    conv_lhs => rw [indentOf, hline, List.takeWhile_append_of_pos hcut, byteLength_append, hlength]
  refine ⟨?_, by omega⟩
  obtain ⟨rest, hjoin⟩ := exists_join_cons ['\n'] (dedent n line) parts
  conv_lhs => rw [hjoin, ← List.takeWhile_append_dropWhile (p := isBlank) (l := dedent n line), List.append_assoc]
  refine takeWhile_run (blanks_takeWhile _) ?_
  rw [List.head?_append_of_ne_nil _ hne]
  exact head_dropWhile isBlank _

/-- The blank characters at the start of joined lines are those of the lines before the first one with content, and what
is left of its indentation. -/
theorem advance_takeWhile_join (hfeed : ∀ line ∈ body, '\n' ∉ line) (hcut : ∀ line ∈ body, CutAt n line)
    {first : List Char} (hfirst : body.find? (!allBlank ·) = some first) (l : Nat) :
    advance ⟨l, 0⟩ ((join ['\n'] (body.map (dedent n))).takeWhile isBlank) =
      ⟨l + (body.findIdx? (!allBlank ·)).getD 0, indentOf first - n⟩ := by
  induction body generalizing l with
  | nil => cases hfirst
  | cons line body ih =>
    obtain ⟨hline, hbody⟩ := List.forall_mem_cons.mp hfeed
    obtain ⟨hcutLine, hcutBody⟩ := List.forall_mem_cons.mp hcut
    rw [List.map_cons]
    have hshort : '\n' ∉ dedent n line := fun hmem => hline (mem_of_mem_dedent hmem)
    cases hblank : allBlank line with
    | true =>
      rw [List.find?_cons_of_neg (by simp [hblank])] at hfirst
      have hne : body.map (dedent n) ≠ [] := by
        rw [Ne, List.map_eq_nil_iff]
        rintro rfl
        cases hfirst
      have hindex : (body.findIdx? (!allBlank ·)).isSome = true := by
        rw [List.findIdx?_isSome, List.any_eq_true]
        have hsolid := List.find?_some hfirst
        exact ⟨first, List.mem_of_find?_eq_some hfirst, hsolid⟩
      obtain ⟨k, hk⟩ := Option.isSome_iff_exists.mp hindex
      have hrun : ∀ c ∈ dedent n line, isBlank c = true :=
        fun c hc => allBlank_iff.mp hblank c (mem_of_mem_dedent hc)
      have hlater := ih hbody hcutBody hfirst (l + 1)
      rw [hk] at hlater
      rw [join_cons_of_ne_nil hne, List.takeWhile_append_of_pos hrun, List.takeWhile_cons_of_pos (by decide),
        advance_feed hshort, hlater, List.findIdx?_cons, hblank, hk]
      simp [Nat.add_assoc, Nat.add_comm 1]
    | false =>
      rw [List.find?_cons_of_pos (by simp [hblank])] at hfirst
      obtain rfl := Option.some.inj hfirst
      have hsolid : ¬Blanks line := by
        rw [← allBlank_iff, hblank]
        exact Bool.false_ne_true
      obtain ⟨hrun, hlength⟩ := hcutLine.takeWhile_join hsolid (body.map (dedent n))
      rw [hrun, advance_of_notMem fun hmem => hshort ((List.takeWhile_prefix isBlank).subset hmem), hlength,
        List.findIdx?_cons, hblank]
      simp

/-- Lines without their common indentation, one below the other. -/
def flush (body : List (List Char)) : List Char := join ['\n'] (body.map (dedent (commonIndent body)))

/-- A literal is not folded. -/
theorem block_literal {raw : List Char} (hraw : raw.head? = some '|') :
    block raw = trim (flush (lines (afterHeader raw))) := by
  obtain ⟨line, hline, hhead⟩ := head?_lines hraw (by decide) (by decide)
  have hblank : isBlank '|' = false := by decide
  obtain ⟨rest, rfl⟩ := List.head?_eq_some_iff.mp hhead
  rw [block, hline, Option.getD_some, trimStart, List.dropWhile_cons_of_neg (by simp [hblank]), tail_lines]
  rfl

private theorem exists_first_of_mem {cs : List Char} (hx : x ∈ cs) (hsolid : isBlank x = false) :
    ∃ first, (lines cs).find? (!allBlank ·) = some first := by
  have hmem : x ∈ (lines cs).flatMap solid := by
    rw [flatMap_solid_lines]
    exact List.mem_filter.mpr ⟨hx, by simp [hsolid]⟩
  obtain ⟨line, hline, hmem⟩ := List.mem_flatMap.mp hmem
  refine Option.isSome_iff_exists.mp (List.find?_isSome.mpr ⟨line, hline, ?_⟩)
  rw [Bool.not_eq_true', ← Bool.not_eq_true, allBlank_iff]
  intro hblanks
  rw [hblanks.solid_eq] at hmem
  cases hmem

/-- The blank characters that trimming takes from the start lead to the first content. -/
theorem advance_leading (hcut : Cuttable (lines text)) (hx : x ∈ text) (hsolid : isBlank x = false) :
    advance ⟨0, 0⟩ ((flush (lines text)).takeWhile isBlank) = ⟨skipped (lines text), lead (lines text)⟩ := by
  obtain ⟨first, hfirst⟩ := exists_first_of_mem hx hsolid
  rw [flush, advance_takeWhile_join (fun _ => notMem_of_mem_lines) hcut.cutAt hfirst, Nat.zero_add, skipped, lead, hfirst,
    Option.map_some, Option.getD_some]

/-- A character of a literal block scalar stands after the same content in the text of the scalar, as many lines below
the first one with content and further right by the common indentation, on that line also by what is deeper. -/
theorem exists_place_block {raw : List Char} (hraw : raw.head? = some '|')
    (hcut : Cuttable (lines (afterHeader raw))) (hx : isBlank x = false) (heq : block raw = before ++ x :: after) :
    ∃ front back, raw = front ++ x :: back ∧ '\n' ∈ front ∧ solid (afterHeader front) = solid before ∧
      ∀ p : Position, advance p front =
        ⟨p.line + 1 + skipped (lines (afterHeader raw)) + lastLine before,
          commonIndent (lines (afterHeader raw)) + (if lastLine before = 0 then lead (lines (afterHeader raw)) else 0) +
            (advance ⟨0, 0⟩ before).column⟩ := by
  obtain ⟨last, -, hflush⟩ := exists_takeWhile_append_trim (flush (lines (afterHeader raw)))
  rw [← block_literal hraw, heq, ← List.append_assoc, List.append_assoc, List.cons_append] at hflush
  obtain ⟨front, back, hfront, hsolid, hplace⟩ := exists_place hcut.cutAt hx hflush
  have hleading := advance_leading hcut (hfront ▸ by simp : x ∈ afterHeader raw) hx
  have hskipped := line_advance ⟨0, 0⟩ ((flush (lines (afterHeader raw))).takeWhile isBlank)
  rw [hleading, Nat.zero_add] at hskipped
  obtain ⟨-, hnil⟩ | ⟨header, hheader, hheaded⟩ := header_cases raw
  · rw [hnil] at hfront
    simp at hfront
  refine ⟨header ++ '\n' :: front, back, ?_, by simp, ?_, fun p => ?_⟩
  · rw [hheaded, hfront]
    simp
  · rw [afterHeader_feed hheader, hsolid, solid_append, (blanks_takeWhile _).solid_eq, List.nil_append]
  · rw [advance_feed hheader, hplace, advance_append, hleading, advance_eq ⟨_, lead _⟩, lastLine_append, ← hskipped]
    simp [Nat.add_assoc]

end Yaml.ScalarText

namespace Shell.Layout

open Text Yaml.ScalarText

theorem least_eq (ns : List Nat) : least ns = ns.min?.getD 0 := by
  cases ns <;> rfl

/-- The layout of a block measures the lines as the text of the scalar does. -/
theorem ofBlock_eq (start : Position) (raw : List Char) : ofBlock start raw =
    { firstLine := wrap (start.line + 1 + skipped (lines (afterHeader raw)))
      firstColumn := commonIndent (lines (afterHeader raw)), indent := commonIndent (lines (afterHeader raw))
      isFolded := raw.head? == some '>' } := by
  rw [ofBlock, least_eq, List.drop_one, tail_lines]
  rfl

private theorem ofRun_literal {r : Run} {raw : List Char} (hraw : r.rawCommand.toList = raw)
    (hhead : raw.head? = some '|') :
    ofRun r = ofBlock r.commandRange.start raw := by
  obtain ⟨rest, rfl⟩ := List.head?_eq_some_iff.mp hhead
  rw [ofRun, hraw]
  rfl

/-- The position with coordinates that start again past the last one. -/
def wrapped (p : Position) : Position := ⟨wrap p.line, wrap p.column⟩

private theorem position_block {raw : List Char} (hraw : raw.head? = some '|') (start : Position) (line column : Nat) :
    (ofBlock start raw).position (line + 2) (column + 1) =
      wrapped ⟨start.line + 1 + skipped (lines (afterHeader raw)) + line,
        commonIndent (lines (afterHeader raw)) + column⟩ := by
  rw [ofBlock_eq, position, hraw]
  simp [wrap, wrapped]

end Shell.Layout

namespace Read

open Yaml View

variable {v : View} {p : Pair} {value node : Node} {r : Run}

/-- The command of a run step is read from a value. -/
structure CommandFrom (v : View) (r : Run) (node : Node) : Prop where
  command : r.command = v.text node
  raw : r.rawCommand = String.ofList (v.rawText node)
  range : r.commandRange = node.range

def CommandWithin (v : View) (value : Node) (r : Run) : Prop :=
  r.command = "" ∨ ∃ node, v.Reaches value node ∧ CommandFrom v r node

private theorem CommandWithin.runField (h : CommandWithin v value r) (hp : v.PairBelow value p) :
    CommandWithin v value (runField v r p) := by
  rw [Read.runField]
  split
  · exact h
  · next inner hinner =>
    dsimp only
    split
    case h_2 => exact .inr ⟨inner, (hp.value hinner).to_reflTransGen, rfl, rfl, rfl⟩
    all_goals
      refine h.imp id fun ⟨node, hnode, hcommand⟩ => ⟨node, hnode, ?_⟩
      exact ⟨hcommand.command, hcommand.raw, hcommand.range⟩

private theorem commandWithin_run (v : View) (p : Pair) (value : Node) (isDeploy : Bool) :
    CommandWithin v value (run v p value isDeploy) := by
  rw [run]
  dsimp only
  split
  · exact .inr ⟨value, .refl, rfl, rfl, rfl⟩
  · next mapping hmapping =>
    refine List.foldlRecOn _ _ (.inl rfl) fun r hr q hq => hr.runField ?_
    exact (below_of_mem_pairs hq).above (reaches_mapping? hmapping)

end Read

namespace Shell

open Text Yaml Yaml.ScalarText Read

/-- A value is a literal block scalar with no anchor or tag beside it, all of whose content is kept. -/
structure IsLiteral (v : View) (node scalar : Node) : Prop where
  content : v.content? node = some scalar
  kind : scalar.kind = .blockScalar
  bar : (v.rawText scalar).head? = some '|'
  start : node.start = scalar.start
  stop : node.stop = scalar.stop
  kept : Cuttable (lines (afterHeader (v.rawText scalar)))

namespace IsLiteral

variable {v : View} {node scalar : Node} {r : Run} (h : IsLiteral v node scalar)
include h

theorem rawText_eq : v.rawText node = v.rawText scalar := by
  rw [View.rawText, View.rawText, Tree.textOf, Tree.textOf, h.start, h.stop]

theorem toList_command (hr : CommandFrom v r node) : r.command.toList = block (v.rawText scalar) := by
  rw [hr.command, View.text, String.toList_ofList, View.characters, h.content]
  dsimp only
  rw [h.kind]

theorem ofRun_eq (hr : CommandFrom v r node) :
    Layout.ofRun r = Layout.ofBlock scalar.start.position (v.rawText scalar) := by
  have hraw : r.rawCommand.toList = v.rawText scalar := by rw [hr.raw, String.toList_ofList, h.rawText_eq]
  rw [Layout.ofRun_literal hraw h.bar, hr.range, Node.range, h.start]

end IsLiteral

/-- In the script a command starts on the second line. -/
theorem positionAt_script {command : String} {before after : List Char} {x : Char} {j : Nat}
    (hcommand : command.toList = before ++ x :: after) (hj : j < x.utf8Size) :
    positionAt (byteLength (firstScriptLine.toList ++ before) + j) (scriptOf command).toList =
      ⟨lastLine before + 1, (advance ⟨0, 0⟩ before).column + j⟩ := by
  have hscript : (scriptOf command).toList = (firstScriptLine.toList ++ before) ++ x :: (after ++ ['\n']) := by
    rw [scriptOf, String.toList_append, String.toList_append, hcommand]
    simp
  have hfirst : advance ⟨0, 0⟩ firstScriptLine.toList = ⟨1, 0⟩ := by decide
  rw [hscript, positionAt_within hj, advance_append, hfirst, advance_eq]
  simp [Nat.add_comm]

/-- The command of a run step is read from a value of the tree. Where the nodes of the tree lie in the text, if that is
a literal block scalar alone, each character of the command that is not blank stands in the scalar, after the same
content, and for each byte of it the place that the layout tells of the script is that of the byte in the source, but
that on the first line the columns fall short by what the line is indented deeper than the others. -/
theorem command_placed (t : Tree) (ht : t.LiesInText) (p : Pair) (value : Node) (isDeploy : Bool)
    (hvalue : value ∈ t.root.preorder) :
    let v := View.ofTree t
    let r := Read.run v p value isDeploy
    (r.command = "" ∨ ∃ node ∈ t.root.preorder, CommandFrom v r node) ∧
      ∀ node ∈ t.root.preorder, CommandFrom v r node → ∀ scalar, IsLiteral v node scalar →
        ∀ before x after, r.command.toList = before ++ x :: after → isBlank x = false → ∀ j < x.utf8Size,
          ∃ front back, v.rawText scalar = front ++ x :: back ∧ '\n' ∈ front ∧
            solid (afterHeader front) = solid before ∧
            let inScript := positionAt (byteLength (firstScriptLine.toList ++ before) + j) (scriptOf r.command).toList
            let inSource := positionAt (scalar.start.offset + byteLength front + j) t.source
            (Layout.ofRun r).position (inScript.line + 1) (inScript.column + 1) = Layout.wrapped
              ⟨inSource.line, inSource.column -
                if inScript.line = 1 then lead (lines (afterHeader (v.rawText scalar))) else 0⟩ := by
  intro v r
  refine ⟨?_, fun node hnode hr scalar hliteral before x after hcommand hx j hj => ?_⟩
  · refine (commandWithin_run v p value isDeploy).imp id fun ⟨node, hreaches, hr⟩ => ⟨node, ?_, hr⟩
    exact View.mem_preorder_of_reaches hvalue hreaches
  · have hblock := hliteral.toList_command hr
    rw [hcommand] at hblock
    obtain ⟨front, back, hfront, hfeed, hsolid, hplace⟩ :=
      exists_place_block hliteral.bar hliteral.kept hx hblock.symm
    refine ⟨front, back, hfront, hfeed, hsolid, ?_⟩
    have hscalar := View.mem_preorder_of_reaches hnode (View.reaches_content? hliteral.content)
    obtain ⟨first, rest, hsource, hstart, -⟩ := (ht scalar hscalar).exists_append
    have htext : t.source = (first ++ front) ++ x :: (back ++ rest) := by
      have hraw : Text.slice t.source scalar.start.offset scalar.stop.offset = front ++ x :: back := hfront
      rw [hraw] at hsource
      rw [hsource]
      simp
    have hoffset : scalar.start.offset + byteLength front = byteLength (first ++ front) := by
      rw [hstart, Mark.offset_after, byteLength_append]
      exact congrArg (· + byteLength front) (Nat.zero_add _)
    have hposition : scalar.start.position = advance ⟨0, 0⟩ first := by rw [hstart, Mark.position_after]; rfl
    have hinSource : positionAt (scalar.start.offset + byteLength front + j) t.source =
        ⟨(advance scalar.start.position front).line, (advance scalar.start.position front).column + j⟩ := by
      rw [hoffset, htext, positionAt_within hj, advance_append, hposition]
    dsimp only
    rw [hinSource, positionAt_script hcommand hj, hliteral.ofRun_eq hr, hplace, Layout.position_block hliteral.bar]
    simp only [Layout.wrapped, Nat.succ_inj]
    congr 2
    split <;> omega

def twoLines : Tree := Grammar.strict.tree "run: |\n  cd app\n  echo\n".toList

/-- The last line of the script is that of the source, two columns further right. -/
theorem command_placed_twoLines : ∃ p value scalar front back,
    twoLines.LiesInText ∧ value ∈ twoLines.root.preorder ∧
      CommandFrom (.ofTree twoLines) (Read.run (.ofTree twoLines) p value false) value ∧
      IsLiteral (.ofTree twoLines) value scalar ∧
      (Read.run (.ofTree twoLines) p value false).command.toList = "cd app\n".toList ++ 'e' :: "cho".toList ∧
      (View.ofTree twoLines).rawText scalar = front ++ 'e' :: back ∧
      (Layout.ofRun (Read.run (.ofTree twoLines) p value false)).position 3 1 =
        Layout.wrapped (positionAt (scalar.start.offset + byteLength front) twoLines.source) := by
  have hsome : ((twoLines.root.preorder.filterMap (View.ofTree twoLines).pair?).head?.bind
      fun p => p.value.bind fun value => ((View.ofTree twoLines).content? value).filter fun scalar =>
        ((View.ofTree twoLines).mapping? value).isNone && scalar.kind = .blockScalar &&
          value.start = scalar.start && value.stop = scalar.stop &&
          (View.ofTree twoLines).rawText scalar = "|\n  cd app\n  echo\n".toList).isSome := by
    decide +kernel
  obtain ⟨scalar, hscalar⟩ := Option.isSome_iff_exists.mp hsome
  obtain ⟨p, hp, hscalar⟩ := Option.bind_eq_some_iff.mp hscalar
  obtain ⟨value, hvalue, hscalar⟩ := Option.bind_eq_some_iff.mp hscalar
  obtain ⟨hcontent, hfacts⟩ := Option.filter_eq_some_iff.mp hscalar
  simp only [Bool.and_eq_true, decide_eq_true_eq, Option.isNone_iff_eq_none] at hfacts
  obtain ⟨⟨⟨⟨hmapping, hkind⟩, hstart⟩, hstop⟩, hraw⟩ := hfacts
  obtain ⟨n, hn, hp⟩ := List.mem_filterMap.mp (List.mem_of_head? hp)
  have hpair : (View.ofTree twoLines).pair? p.node = some p := by rw [View.node_of_pair? hp, hp]
  have hmem : value ∈ twoLines.root.preorder :=
    View.mem_preorder_of_reaches hn (View.node_of_pair? hp ▸ (View.contains_value hpair hvalue).to_reflTransGen)
  have hr : CommandFrom (.ofTree twoLines) (Read.run (.ofTree twoLines) p value false) value := by
    rw [Read.run, hmapping]
    exact ⟨rfl, rfl, rfl⟩
  have hliteral : IsLiteral (.ofTree twoLines) value scalar :=
    ⟨hcontent, hkind, by rw [hraw]; rfl, hstart, hstop, by rw [hraw]; decide⟩
  have hcommand : (Read.run (.ofTree twoLines) p value false).command.toList =
      "cd app\n".toList ++ 'e' :: "cho".toList := by
    rw [hliteral.toList_command hr, hraw]
    decide
  have hlies : twoLines.LiesInText := by decide +kernel
  obtain ⟨front, back, hfront, -, -, hplace⟩ := (command_placed twoLines hlies p value false hmem).2 value hmem hr scalar
    hliteral _ _ _ hcommand (by decide) 0 (by decide)
  refine ⟨p, value, scalar, front, back, hlies, hmem, hr, hliteral, hcommand, hfront, ?_⟩
  rw [positionAt_script hcommand (by decide)] at hplace
  exact hplace

def runSteps (t : Tree) : List Run :=
  let v := View.ofTree t
  (t.root.preorder.filterMap v.pair?).filterMap fun p =>
    (p.value.filter fun _ => v.keyText p = "run").map fun value => Read.run v p value false

/-- Behind an anchor the layout takes a literal for plain text, and of a first line that is indented deeper it tells the
columns of the others. -/
theorem literal_misplaced :
    (let source := "run:\n  command: &c |\n    cd app\n    echo\n".toList
     (runSteps (Grammar.strict.tree source)).map (fun r => (r.command, (Layout.ofRun r).position 3 1)) =
         [("cd app\necho", ⟨2, 0⟩)] ∧
       (cut? "echo".toList source).map (fun parts => advance ⟨0, 0⟩ parts.1) = some ⟨3, 4⟩) ∧
      let source := "run:\n  command: |2\n      cd app\n    echo\n".toList
      (runSteps (Grammar.strict.tree source)).map (fun r => (r.command, (Layout.ofRun r).position 2 1)) =
         [("cd app\necho", ⟨2, 4⟩)] ∧
        (cut? "cd".toList source).map (fun parts => advance ⟨0, 0⟩ parts.1) = some ⟨2, 6⟩ := by
  decide +kernel

end Shell

end PipelineLint
