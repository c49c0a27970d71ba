import PipelineLint.Concrete.Grammar.Lexeme

/-! # Tokens

A token is a piece of text with a symbol and a place. Which symbols are looked for, and at which places,
depends on what was read before: the same dash is an item of a sequence in one place, a part of a scalar
in another and nothing at all in a third. `Reading.next` gives the next token among those expected.
-/

namespace PipelineLint.Yaml

inductive Symbol where
  | directive | documentStart | documentEnd | endOfText
  /-- The end of a block collection or block scalar. -/
  | dedent
  | dash | question | colon
  /-- The colon after a key without a question mark. -/
  | keyColon
  | header
  | content
  | line
  | lines
  | doubleQuote | singleQuote | openSequence | openMapping | alias | anchor | tag
  | closeSequence | closeMapping | comma
  | flowQuestion
  | flowColon
  /-- A colon inside a flow collection that may touch what follows. -/
  | jsonColon
  deriving DecidableEq, Repr, Inhabited

inductive Place where
  | beside
  /-- On a further line, right of the block's column. -/
  | deeper
  /-- On a further line, in the block's column. -/
  | level
  /-- Where its kind of token always stands. -/
  | margin
  deriving DecidableEq, Repr, Inhabited

abbrev Expected := Symbol → Place → Bool

namespace Expected

def either (e f : Expected) : Expected := fun symbol place => e symbol place || f symbol place

def symbols (ss : List Symbol) (ps : List Place) : Expected := fun symbol place =>
  ss.contains symbol && ps.contains place

end Expected

inductive BlockKind where
  | mapping | sequence | scalar
  deriving DecidableEq, Repr, Inhabited

/-- An open block: its lines stand in column `floor` or further right, except that the entries of a
collection stand one column further left. -/
structure Indent where
  kind : BlockKind
  floor : Nat
  deriving DecidableEq, Repr, Inhabited

structure LineStart where
  line : Nat
  column : Nat
  /-- A tab stands in the white space before it. -/
  tabbed : Bool
  deriving DecidableEq, Repr, Inhabited

structure Reading where
  head : Head
  /-- The open blocks, the innermost first. -/
  indents : List Indent := []
  /-- Where the last line with a key or value begins. -/
  lineStart : Option LineStart := none
  /-- A value could start at the head, outside of all blocks, but not with the text that follows. -/
  isRefused : Bool := false
  deriving Repr, Inhabited

structure Token where
  symbol : Symbol
  place : Place
  start : Head
  after : Reading
  deriving Repr, Inhabited

inductive Missing where
  /-- A scalar could have started, but not with this text. -/
  | refused
  | stray
  deriving DecidableEq, Repr, Inhabited

namespace Token

def node (t : Token) (kind : Kind) (children : List Node) : Node :=
  t.start.node kind t.after.head children

end Token

namespace Reading

/-- The least column of further lines in a list of open blocks. -/
def floorOf (indents : List Indent) : Nat := (indents.head?.map (·.floor)).getD 0

/-- The least column of further lines. -/
def floor (r : Reading) : Nat := floorOf r.indents

/-- The place of a token after some white space. -/
def place? (r : Reading) (gap : Gap) : Option Place :=
  if !gap.crossed then some .beside
  else if r.floor ≤ gap.spaces then some .deeper
  else if r.floor = gap.spaces + 1 && !gap.tabbed then some .level
  else none

/-- The innermost block ends before a token. A sequence in the column of the mapping around it ends
before anything but a dash. -/
def dedents (r : Reading) (column : Nat) (rest : List Char) : Bool :=
  match r.indents with
  | [] => false
  | inner :: outer =>
    column < inner.floor &&
      if inner.floor = floorOf outer && inner.kind = .sequence then
        column + 1 < inner.floor || rest.head? != some '-'
      else column < floorOf outer || inner.kind = .scalar

/-- The state with the innermost block closed. -/
def close (r : Reading) : Reading := { r with indents := r.indents.tail }

def openBlock (r : Reading) (kind : BlockKind) (column : Nat) : Reading :=
  { r with indents := ⟨kind, column + 1⟩ :: r.indents }

def noteStart (r : Reading) (start : Head) (gap : Gap) : Reading :=
  if r.lineStart.any (·.line = start.line) then r
  else { r with lineStart := some ⟨start.line, start.column, gap.tabbed⟩ }

/-- The state after the colon of a key: the mapping is opened where the first key of the line stands
unless it is open. -/
def afterKey (r : Reading) : Option Reading :=
  match r.lineStart with
  | none => none
  | some start =>
    if start.tabbed then none
    else if r.floor = start.column + 1 then some r
    else some (r.openBlock .mapping start.column)

/-- A token that the text at a head may be: its symbol, and the state after it where it is well formed. -/
abbrev Candidate := Symbol × Option Reading

/-- The tokens that the text at a head may be, beside unquoted scalars. -/
def candidates (r : Reading) (gap : Gap) (place : Place) (h : Head) : List Candidate :=
  let after (h : Head) : Reading := { r with head := h }
  let value (h : Head) : Reading := { r.noteStart h gap with head := h.step }
  let named (symbol : Symbol) (last : Option Head) : Candidate :=
    (symbol, last.map fun last => { r.noteStart h gap with head := last })
  let indicator (symbol : Symbol) (kind : BlockKind) : Candidate :=
    (symbol,
      if place = .level then
        some (if kind = .sequence && (r.indents.head?.any (·.kind = .mapping)) then
          (after h.step).openBlock kind h.column else after h.step)
      else if gap.tabbed then none
      else some ((after h.step).openBlock kind h.column))
  match h.rest with
  | [] => []
  | c :: cs =>
    match c with
    | '*' => [named .alias (Lexeme.named h)]
    | '&' => [named .anchor (Lexeme.named h)]
    | '!' => [named .tag (Lexeme.tag h)]
    | '[' => [(.openSequence, some (value h))]
    | '{' => [(.openMapping, some (value h))]
    | '"' => [(.doubleQuote, some (value h))]
    | '\'' => [(.singleQuote, some (value h))]
    | ']' => [(.closeSequence, some (after h.step))]
    | '}' => [(.closeMapping, some (after h.step))]
    | ',' => [(.comma, some (after h.step))]
    | '?' =>
      if blankAhead cs then
        [indicator .question .mapping, (.flowQuestion, some (after h.step))]
      else []
    | ':' =>
      let touching : List Candidate := [(.jsonColon, some (after h.step))]
      let blank := if blankAhead cs then
          [indicator .colon .mapping, (.keyColon, (after h.step).afterKey)] else []
      let separating := if blankAhead cs || cs.head?.any isFlowIndicator then
          [(.flowColon, some (after h.step))] else []
      touching ++ blank ++ separating
    | '-' => if blankAhead cs then [indicator .dash .sequence] else []
    | '|' => [(.header, header r.floor)]
    | '>' => [(.header, header r.floor)]
    | _ => []
where
  /-- The state after the header of a block scalar. -/
  header (floor : Nat) : Option Reading :=
    (Lexeme.blockHeader h).map fun (digit, last) =>
      { r with
        head := last
        indents := ⟨.scalar, Lexeme.blockIndent floor digit last⟩ :: r.indents }

def scalar (nested : Bool) (expected : Expected) (r : Reading) (gap : Gap) (place : Place) (h : Head) :
    Except Missing Token :=
  if expected .line place || expected .lines place then
    match Lexeme.plain nested r.floor h with
    | none => .error .refused
    | some last =>
      let symbol : Symbol := if last.line = h.line then .line else .lines
      if expected symbol place then
        let noted := if nested then r else r.noteStart h gap
        .ok ⟨symbol, place, h, { noted with head := last }⟩
      else .error .refused
  else .error .stray

/-- The marker at a head that starts or ends a document or holds a directive, if it is expected. Blocks
end first. -/
def marker? (expected : Expected) (r : Reading) (h : Head) : Option Token :=
  let found (symbol : Symbol) : Option Token :=
    if expected .dedent .margin then some ⟨.dedent, .margin, r.head, r.close⟩
    else if expected symbol .margin then some ⟨symbol, .margin, h, { r with head := h.steps 3 }⟩
    else none
  if h.column = 0 && h.rest.head? == some '%' && expected .directive .margin &&
      (Lexeme.directiveName h).isSome then
    some ⟨.directive, .margin, h, { r with head := h }⟩
  else if h.markerAhead '-' then found .documentStart
  else if h.markerAhead '.' then found .documentEnd
  else none

/-- A number sign stands at a head where a block scalar can end: before a comment, unless it belongs to a line of
the scalar. -/
def mayEndScalar (expected : Expected) (h : Head) : Bool :=
  h.rest.head? == some '#' && expected .content .deeper && expected .dedent .margin

/-- A comment stands at a head. Lines of a block scalar are no comments. -/
def commentAhead (expected : Expected) (r : Reading) (gap : Gap) (h : Head) : Bool :=
  h.rest.head? == some '#' &&
    if expected .content .deeper then !gap.crossed
    else h.column = 0 || h.mark.offset != r.head.mark.offset

/-- The next token among those expected, or a comment. A number sign left of the lines of a block scalar ends it,
whatever white space is before it; one that is no start of a line only because of a tab ends it too, but leaves its
column open. -/
def next (nested : Bool) (expected : Expected) (r : Reading) : Except Missing (Node × Head ⊕ Token) :=
  let (gap, h) := r.head.skip
  let token (symbol : Symbol) (place : Place) (after : Reading) : Except Missing (Node × Head ⊕ Token) :=
    .ok (.inr ⟨symbol, place, h, after⟩)
  if mayEndScalar expected h && h.column < r.floor then token .dedent .margin r.close
  else if commentAhead expected r gap h then .ok (.inl h.comment)
  else if h.atEnd then
    if expected .dedent .margin then token .dedent .margin { r.close with head := h }
    else if expected .endOfText .margin then token .endOfText .margin { r with head := h }
    else .error .stray
  else if expected .dedent .margin && !gap.tabbed && r.dedents h.column h.rest then
    token .dedent .margin r.close
  else match marker? expected r h, r.place? gap with
    | some t, _ => .ok (.inr t)
    | none, none =>
      if mayEndScalar expected h then token .dedent .margin r else .error .stray
    | none, some place =>
      match if expected .content place then Lexeme.blockLine h else none with
      | some last => token .content place { r with head := last }
      | none =>
        match (r.candidates gap place h).find? fun c => expected c.1 place with
        | some (symbol, some after) => token symbol place after
        | some (_, none) => .error .refused
        | none => (scalar nested expected r gap place h).map .inr

/-- The next token among those expected, with the comments before it, and the state after them. -/
structure Ahead where
  comments : List Node
  token : Except Missing Token
  reading : Reading

namespace Ahead

def when (a : Ahead) (p : Token → Bool) : Option Token :=
  match a.token with
  | .ok t => if p t then some t else none
  | .error _ => none

def at? (a : Ahead) (symbol : Symbol) : Option Token := a.when (·.symbol = symbol)

/-- A value could stand here, outside of all blocks, but not with this text. -/
def isRefused (a : Ahead) : Bool :=
  a.reading.indents.isEmpty && (a.reading.isRefused || match a.token with
    | .error .refused => true
    | _ => false)

def toBreak (a : Ahead) : Break := ⟨a.comments, some a.reading.head.mark, a.isRefused⟩

end Ahead

def ahead (nested : Bool) (expected : Expected) (r : Reading) : Ahead :=
  go (r.head.rest.length + 1) r
where
  go : Nat → Reading → Ahead
    | 0, r => ⟨[], .error .stray, r⟩
    | fuel + 1, r =>
      match next nested expected r with
      | .error m => ⟨[], .error m, r⟩
      | .ok (.inr t) => ⟨[], .ok t, r⟩
      | .ok (.inl (comment, after)) =>
        let more := go fuel { r with head := after }
        { more with comments := comment :: more.comments }

end Reading

end PipelineLint.Yaml
