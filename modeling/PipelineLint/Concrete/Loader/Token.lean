import PipelineLint.Concrete.Loader.Scalar

/-! # Tokens of YAML text

`tokens` reads the marks, names and scalars of a text. Collections that are written by indentation get tokens
where they start and end. A key has no mark of its own: its token is put in front of it as soon as the colon
behind it is found, so that a token is only given out when it can be no key any more.
-/

namespace PipelineLint.Load

inductive TokenKind where
  | streamEnd
  | version (major minor : Nat)
  | tagHandle (handle meaning : List Char)
  | documentStart
  | documentEnd
  | blockSequenceStart
  | blockMappingStart
  | blockEnd
  | flowSequenceStart
  | flowSequenceEnd
  | flowMappingStart
  | flowMappingEnd
  | blockEntry
  | flowEntry
  | key
  | value
  | alias (name : List Char)
  | anchor (name : List Char)
  | tag (handle suffixText : List Char)
  | scalar (text : List Char) (isPlain : Bool)
  deriving DecidableEq, Repr, Inhabited

structure Token where
  kind : TokenKind
  mark : Mark
  deriving DecidableEq, Repr, Inhabited

structure KeyStart where
  /-- The number of tokens before the key. -/
  index : Nat
  isRequired : Bool
  mark : Mark
  deriving DecidableEq, Repr, Inhabited

structure Scanner where
  cursor : Cursor
  key : Option KeyStart := none
  /-- Where keys may have started inside the brackets that are open, the innermost first. -/
  flowKeys : List (Option KeyStart) := []
  allowsKey : Bool := true
  /-- The column of the innermost collection outside of brackets, or `-1`. -/
  indent : Int := -1
  indents : List Int := []
  waiting : List Token := []
  given : Nat := 0
  isDone : Bool := false
  deriving Repr, Inhabited

namespace Scanner

def inFlow (s : Scanner) : Bool := !s.flowKeys.isEmpty

def fault {α : Type} (s : Scanner) (problem : Problem) : Except Fault α := .error (s.cursor.fault problem)

def push (s : Scanner) (kind : TokenKind) (mark : Mark) : Scanner :=
  { s with waiting := s.waiting ++ [⟨kind, mark⟩] }

/-- Adds a token at the cursor that is some characters long. -/
def mark (s : Scanner) (kind : TokenKind) (length : Nat) : Scanner :=
  { s.push kind s.cursor.mark with cursor := s.cursor.advance length }

def insert (s : Scanner) (index : Nat) (kind : TokenKind) (mark : Mark) : Scanner :=
  let n := index - s.given
  { s with waiting := s.waiting.take n ++ ⟨kind, mark⟩ :: s.waiting.drop n }

def innerKey (s : Scanner) : Option KeyStart :=
  match s.flowKeys with
  | [] => s.key
  | key :: _ => key

def setInnerKey (s : Scanner) (key : Option KeyStart) : Scanner :=
  match s.flowKeys with
  | [] => { s with key }
  | _ :: keys => { s with flowKeys := key :: keys }

def dropKey (s : Scanner) : Except Fault Scanner :=
  if s.innerKey.any (·.isRequired) then s.fault .noColon else .ok (s.setInnerKey none)

def startKey (s : Scanner) : Except Fault Scanner :=
  if s.allowsKey then do
    let isRequired := !s.inFlow && s.indent == s.cursor.mark.column
    pure ((← s.dropKey).setInnerKey (some ⟨s.given + s.waiting.length, isRequired, s.cursor.mark⟩))
  else .ok s

/-- A key that has started is too far away: it would be in another line, or too long. -/
def isStale (s : Scanner) (key : KeyStart) : Bool :=
  key.mark.line < s.cursor.mark.line || key.mark.index + 1024 < s.cursor.mark.index

/-- Drops the keys that are too far away. -/
def dropStale (s : Scanner) : Except Fault Scanner :=
  if (s.key :: s.flowKeys).any fun key => key.any fun k => s.isStale k && k.isRequired then s.fault .noColon
  else
    let fresh (key : Option KeyStart) : Option KeyStart := key.filter fun k => !s.isStale k
    .ok { s with key := fresh s.key, flowKeys := s.flowKeys.map fresh }

/-- Opens a collection at a column, unless it is open or brackets are. Its token is put in front of the token with
a number, if one is given. -/
def openAt (s : Scanner) (column : Nat) (index : Option Nat) (kind : TokenKind) (mark : Mark) : Scanner :=
  if s.inFlow || column ≤ s.indent then s
  else
    let s := { s with indents := s.indent :: s.indents, indent := column }
    match index with
    | some index => s.insert index kind mark
    | none => s.push kind mark

/-- Closes the collections right of a column, the innermost of which has the column `indent`. -/
def closeIndents (column : Int) (s : Scanner) : List Int → Int → Scanner
  | [], indent => { s with indent, indents := [] }
  | outer :: indents, indent =>
    if indent ≤ column then { s with indent, indents := outer :: indents }
    else closeIndents column (s.push .blockEnd s.cursor.mark) indents outer

/-- Closes the collections right of a column, unless brackets are open. -/
def closeTo (s : Scanner) (column : Int) : Scanner :=
  if s.inFlow then s else closeIndents column s s.indents s.indent

/-- Skips blanks, comments and line breaks. Tabs do not count as blanks where a key may start. -/
def skipGap : Nat → Scanner → Scanner
  | 0, s => s
  | fuel + 1, s =>
    let c := s.cursor
    let c := if c.mark.column == 0 && c.rest.head?.any (·.toNat == 0xFEFF) then c.advance 1 else c
    let c := c.skipWhile fun x => x == ' ' || ((s.inFlow || !s.allowsKey) && x == '\t')
    let c := if c.rest.head? == some '#' then c.skipLine else c
    if atBreak c.rest then
      skipGap fuel { s with cursor := c.readBreak.2, allowsKey := s.allowsKey || !s.inFlow }
    else { s with cursor := c }

def streamEnd (s : Scanner) : Except Fault Scanner := do
  let m := s.cursor.mark
  let s := { s with cursor.mark := if m.column = 0 then m else ⟨m.line + 1, 0, m.index⟩ }
  let s ← (s.closeTo (-1)).dropKey
  pure { s.mark .streamEnd 0 with allowsKey := false, isDone := true }

def documentMark (s : Scanner) (kind : TokenKind) : Except Fault Scanner := do
  let s ← (s.closeTo (-1)).dropKey
  pure { s.mark kind 3 with allowsKey := false }

def openFlow (s : Scanner) (kind : TokenKind) : Except Fault Scanner := do
  let s ← s.startKey
  pure { s.mark kind 1 with flowKeys := none :: s.flowKeys, allowsKey := true }

def closeFlow (s : Scanner) (kind : TokenKind) : Except Fault Scanner := do
  let s ← s.dropKey
  pure { s.mark kind 1 with flowKeys := s.flowKeys.tail, allowsKey := false }

def flowEntry (s : Scanner) : Except Fault Scanner := do
  pure { (← s.dropKey).mark .flowEntry 1 with allowsKey := true }

def blockEntry (s : Scanner) : Except Fault Scanner := do
  if !s.inFlow && !s.allowsKey then s.fault .blockEntry
  else
    let s ← (s.openAt s.cursor.mark.column none .blockSequenceStart s.cursor.mark).dropKey
    pure { s.mark .blockEntry 1 with allowsKey := true }

def explicitKey (s : Scanner) : Except Fault Scanner := do
  if !s.inFlow && !s.allowsKey then s.fault .mappingKey
  else
    let s ← (s.openAt s.cursor.mark.column none .blockMappingStart s.cursor.mark).dropKey
    pure { s.mark .key 1 with allowsKey := !s.inFlow }

def value (s : Scanner) : Except Fault Scanner :=
  match s.innerKey with
  | some key =>
    let s := s.insert key.index .key key.mark
    let s := (s.openAt key.mark.column (some key.index) .blockMappingStart key.mark).setInnerKey none
    .ok { s.mark .value 1 with allowsKey := false }
  | none =>
    if !s.inFlow && !s.allowsKey then s.fault .mappingValue
    else
      let s := s.openAt s.cursor.mark.column none .blockMappingStart s.cursor.mark
      .ok { s.mark .value 1 with allowsKey := !s.inFlow }

def name (s : Scanner) (kind : List Char → TokenKind) : Except Fault Scanner := do
  let s ← s.startKey
  let start := s.cursor.advance 1
  let name := start.rest.takeWhile isWordChar
  let c := start.advance name.length
  let isEnded := atBlank c.rest ||
    c.rest.head?.any fun x => ['?', ':', ',', ']', '\x7d', '%', '@', Char.ofNat 96].contains x
  if name.isEmpty || !isEnded then throw (c.fault .anchorName)
  else pure { s.push (kind name) s.cursor.mark with cursor := c, allowsKey := false }

def scalar (s : Scanner) (text : List Char) (isPlain : Bool) (c : Cursor) (allowsKey : Bool) : Scanner :=
  { s.push (.scalar text isPlain) s.cursor.mark with cursor := c, allowsKey }

def quotedScalar (s : Scanner) (quote : Char) : Except Fault Scanner := do
  let s ← s.startKey
  let (text, c) ← quoted quote (s.cursor.rest.length + 1) (s.cursor.advance 1)
  pure (s.scalar text false c false)

/-- A plain scalar. Behind a line break a key may start. -/
def plainScalar (s : Scanner) : Except Fault Scanner := do
  let s ← s.startKey
  let (text, c, isBroken) ← plain s.inFlow (s.indent + 1).toNat (s.cursor.rest.length + 1) {} s.cursor
  pure (s.scalar text true c isBroken)

def blockScalar (s : Scanner) (literal : Bool) : Except Fault Scanner := do
  let s ← s.dropKey
  let (text, c) ← block literal s.indent (s.cursor.advance 1)
  pure (s.scalar text false c true)

end Scanner

end PipelineLint.Load
