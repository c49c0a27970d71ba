import PipelineLint.Concrete.Loader.Cursor
import PipelineLint.Text.Integer

/-! # Scalars in YAML text

How scalars are read: quoted, plain and as blocks. Each reader starts behind the mark that opens the scalar and
ends behind the scalar.
-/

namespace PipelineLint.Load

/-- The character that a letter after a backslash stands for. -/
def escaped? : Char → Option Char
  | '0' => some (Char.ofNat 0)
  | 'a' => some (Char.ofNat 7)
  | 'b' => some (Char.ofNat 8)
  | 't' => some '\t'
  | '\t' => some '\t'
  | 'n' => some '\n'
  | 'v' => some (Char.ofNat 11)
  | 'f' => some (Char.ofNat 12)
  | 'r' => some '\r'
  | 'e' => some (Char.ofNat 27)
  | ' ' => some ' '
  | '"' => some '"'
  | '/' => some '/'
  | '\\' => some '\\'
  | 'N' => some (Char.ofNat 0x85)
  | '_' => some (Char.ofNat 0xA0)
  | 'L' => some (Char.ofNat 0x2028)
  | 'P' => some (Char.ofNat 0x2029)
  | _ => none

/-- The number of hexadecimal digits after a letter. -/
def escapeLength? : Char → Option Nat
  | 'x' => some 2
  | 'u' => some 4
  | 'U' => some 8
  | _ => none

def readEscape (letter : Char) (c : Cursor) : Except Fault (Char × Cursor) :=
  match escaped? letter, escapeLength? letter with
  | some x, _ => .ok (x, c.advance 2)
  | none, none => .error (c.fault .unknownEscape)
  | none, some n =>
    let code := c.advance 2
    let digits := code.rest.take n
    match Text.ofHex? digits with
    | none => .error (code.fault .hexadecimal)
    | some value =>
      if digits.length < n then .error (code.fault .hexadecimal)
      else if (0xD800 ≤ value && value ≤ 0xDFFF) || 0x10FFFF < value then
        .error (code.fault .escapedCharacter)
      else .ok (Char.ofNat value, code.advance n)

/-- Reads the characters of a quoted scalar up to a blank, a line break or the closing quote. The last value
says that an escaped line break was read. -/
def quotedWord (quote : Char) : Nat → Cursor → Except Fault (List Char × Cursor × Bool)
  | 0, c => .ok ([], c, false)
  | fuel + 1, c =>
    match c.rest with
    | [] => .ok ([], c, false)
    | x :: cs =>
      if isSpaceOrTab x || isBreak x then .ok ([], c, false)
      else if quote == '\'' && x == '\'' && cs.head? == some '\'' then do
        let (word, c, escaped) ← quotedWord quote fuel (c.advance 2)
        pure ('\'' :: word, c, escaped)
      else if x == quote then .ok ([], c, false)
      else if quote == '"' && x == '\\' && atBreak cs then .ok ([], (c.advance 1).readBreak.2, true)
      else if quote == '"' && x == '\\' then do
        let (y, c) ← readEscape (cs.head?.getD (Char.ofNat 0)) c
        let (word, c, escaped) ← quotedWord quote fuel c
        pure (y :: word, c, escaped)
      else do
        let (word, c, escaped) ← quotedWord quote fuel (c.advance 1)
        pure (x :: word, c, escaped)

def quoted (quote : Char) : Nat → Cursor → Except Fault (List Char × Cursor)
  | 0, c => .error (c.fault .quotedEnd)
  | fuel + 1, c =>
    if c.atDocumentMark then .error (c.fault .documentIndicator)
    else if c.rest.isEmpty then .error (c.fault .quotedEnd)
    else do
      let (word, c, escaped) ← quotedWord quote (c.rest.length + 1) c
      if c.rest.head? == some quote then pure (word, c.advance 1)
      else
        let (gap, c) ← Gap.read 0 (c.rest.length + 1) { isBroken := escaped } c
        let (text, c) ← quoted quote fuel c
        pure (word ++ gap.text ++ text, c)

/-- The characters that end plain scalars inside brackets. -/
def isFlowMark (x : Char) : Bool := [',', '[', ']', '\x7b', '\x7d'].contains x

/-- Reads the characters of a plain scalar up to a blank, a line break or a mark that ends it. -/
def plainWord (inFlow : Bool) : Nat → Cursor → Except Fault (List Char × Cursor)
  | 0, c => .ok ([], c)
  | fuel + 1, c =>
    match c.rest with
    | [] => .ok ([], c)
    | x :: cs =>
      if isSpaceOrTab x || isBreak x then .ok ([], c)
      else if inFlow && x == ':' && cs.head?.any fun y => isFlowMark y || y == '?' then
        .error (c.fault .unexpectedColon)
      else if (x == ':' && atBlank cs) || (inFlow && isFlowMark x) then .ok ([], c)
      else do
        let (word, c) ← plainWord inFlow fuel (c.advance 1)
        pure (x :: word, c)

/-- Reads a plain scalar. `before` is the gap in front of its next word. Lines that go on with a scalar outside
of brackets start at the column `indent` or after it. The last value says that a line break was read behind the
last word. -/
def plain (inFlow : Bool) (indent : Nat) : Nat → Gap → Cursor → Except Fault (List Char × Cursor × Bool)
  | 0, before, c => .ok ([], c, before.isBroken)
  | fuel + 1, before, c =>
    if c.atDocumentMark || c.rest.head? == some '#' then .ok ([], c, before.isBroken)
    else do
      let (word, c) ← plainWord inFlow (c.rest.length + 1) c
      let text := if word.isEmpty then [] else before.text ++ word
      let gap := if word.isEmpty then before else {}
      if !(atSpaceOrTab c.rest || atBreak c.rest) then pure (text, c, gap.isBroken)
      else
        let (gap, c) ← Gap.read indent (c.rest.length + 1) gap c
        if !inFlow && c.mark.column < indent then pure (text, c, gap.isBroken)
        else
          let (more, c, isBroken) ← plain inFlow indent fuel gap c
          pure (text ++ more, c, isBroken)

/-- What happens to the line breaks at the end of a block scalar. -/
inductive Chomping where
  | strip | clip | keep
  deriving DecidableEq, Repr, Inhabited

def chomping? (c : Cursor) : Option (Chomping × Cursor) :=
  match c.rest.head? with
  | some '+' => some (.keep, c.advance 1)
  | some '-' => some (.strip, c.advance 1)
  | _ => none

/-- Reads the digit of a header, which is zero if there is none. -/
def increment (c : Cursor) : Except Fault (Nat × Cursor) :=
  match c.rest.head? with
  | some d =>
    if d == '0' then .error (c.fault .zeroIndentation)
    else if d.isDigit then .ok (d.toNat - 48, c.advance 1)
    else .ok (0, c)
  | none => .ok (0, c)

def blockHeader (c : Cursor) : Except Fault (Chomping × Nat × Cursor) := do
  let (chomping, n, c) ← match chomping? c with
    | some (chomping, c) => do
      let (n, c) ← increment c
      pure (chomping, n, c)
    | none => do
      let (n, c) ← increment c
      if n = 0 then pure (Chomping.clip, n, c)
      else match chomping? c with
        | some (chomping, c) => pure (chomping, n, c)
        | none => pure (Chomping.clip, n, c)
  let c := c.skipWhile isSpaceOrTab
  let c := if c.rest.head? == some '#' then c.skipLine else c
  if c.rest.isEmpty then pure (chomping, n, c)
  else if atBreak c.rest then pure (chomping, n, c.readBreak.2)
  else throw (c.fault .blockScalarHeader)

/-- Reads the blank lines of a block scalar and the indentation of the next line, which ends at the column
`indent`, or at the first character that is no space as long as this is zero. `deepest` is the rightmost column
reached. -/
def blockBreaks (indent : Nat) : Nat → Nat → Cursor → Except Fault (List Char × Nat × Cursor)
  | 0, deepest, c => .ok ([], deepest, c)
  | fuel + 1, deepest, c =>
    let spaces := (c.rest.takeWhile (· == ' ')).length
    let c := c.advance (if indent = 0 then spaces else min spaces (indent - c.mark.column))
    let deepest := max deepest c.mark.column
    if (indent = 0 || c.mark.column < indent) && c.rest.head? == some '\t' then
      .error (c.fault .blockScalarTab)
    else if atBreak c.rest then do
      let (text, c) := c.readBreak
      let (breaks, deepest, c) ← blockBreaks indent fuel deepest c
      pure (text ++ breaks, deepest, c)
    else .ok ([], deepest, c)

/-- Reads the lines of a block scalar. `lead` is the break before the line, `breaks` are the blank lines before
it, and `wasBlank` says that the line before starts with a blank. The last values are the break and the blank
lines at the end. -/
def blockLines (literal : Bool) (indent : Nat) : Nat → List Char → List Char → Bool → Cursor →
    Except Fault (List Char × List Char × List Char × Cursor)
  | 0, lead, breaks, _, c => .ok ([], lead, breaks, c)
  | fuel + 1, lead, breaks, wasBlank, c =>
    if c.mark.column != indent || c.rest.isEmpty then .ok ([], lead, breaks, c)
    else do
      let isBlank := atSpaceOrTab c.rest
      let joint := if !literal && lead.head? == some '\n' && !wasBlank && !isBlank then
          if breaks.isEmpty then [' '] else []
        else lead
      let line := c.rest.takeWhile fun x => !isBreak x
      let (next, c) := c.skipLine.readBreak
      let (after, _, c) ← blockBreaks indent (c.rest.length + 1) 0 c
      let (text, lead, last, c) ← blockLines literal indent fuel next after isBlank c
      pure (joint ++ breaks ++ line ++ text, lead, last, c)

/-- Reads a block scalar behind its mark. `parent` is the column of the collection around it, or `-1`. -/
def block (literal : Bool) (parent : Int) (c : Cursor) : Except Fault (List Char × Cursor) := do
  let (chomping, n, c) ← blockHeader c
  let given := if n = 0 then 0 else (max parent 0).toNat + n
  let (breaks, deepest, c) ← blockBreaks given (c.rest.length + 1) 0 c
  let indent := if given = 0 then max deepest (max (parent + 1).toNat 1) else given
  let (text, lead, last, c) ← blockLines literal indent (c.rest.length + 1) [] breaks false c
  pure (text ++ (if chomping = .strip then [] else lead) ++ (if chomping = .keep then last else []), c)

end PipelineLint.Load
