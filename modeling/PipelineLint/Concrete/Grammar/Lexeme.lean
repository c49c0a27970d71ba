import PipelineLint.Concrete.Grammar.Head

/-! # Lexemes

The pieces of a YAML text that hold no other values: unquoted and quoted scalars, the names of anchors
and aliases, tags, the headers of block scalars and the words of directives. Each function starts at a
head that stands at the piece and gives the head after it, or nothing where the piece is not well
formed.
-/

namespace PipelineLint.Yaml

/-- Where reading a construct stopped: the nodes that were complete until then, and the end of the last
token. -/
structure Break where
  complete : List Node := []
  stop : Option Mark := none
  /-- A value could have started there, but not with the text that follows. -/
  isRefused : Bool := false
  deriving Repr, Inhabited

namespace Break

/-- The break seen from a construct that has read `complete` and a last token up to `stop`. -/
def within (complete : List Node) (stop : Mark) (b : Break) : Break :=
  { b with complete := complete ++ b.complete, stop := some (b.stop.getD stop) }

end Break

structure FlowStyle where
  /-- The value stands inside brackets or braces. -/
  nested : Bool := false
  oneLine : Bool := false
  deriving DecidableEq, Repr, Inhabited

namespace Lexeme

/-- A character that can follow a colon, a dash or a question mark inside an unquoted scalar comes
next. -/
def plainAhead (nested : Bool) : List Char → Bool
  | [] => false
  | c :: _ => isPrintable c && !(nested && isFlowIndicator c)

def startsPlain (nested : Bool) : List Char → Bool
  | [] => false
  | c :: cs =>
    if c == '-' || c == '?' || c == ':' then plainAhead nested cs
    else isPrintable c && !isIndicator c

/-- The number of characters of an unquoted scalar on one line. The scalar ends before a colon that
separates, before a number sign after white space and, inside a flow collection, before punctuation;
white space counts only where more follows. `spaces` counts the white space since the last character
that belongs to the scalar. -/
def plainLength (nested : Bool) (spaces : Nat) : List Char → Nat
  | [] => 0
  | c :: cs =>
    if isSpace c then plainLength nested (spaces + 1) cs
    else if !isPrintable c || (nested && isFlowIndicator c) then 0
    else if c == ':' && !plainAhead nested cs then 0
    else if c == '#' && spaces != 0 then 0
    else spaces + 1 + plainLength nested 0 cs

/-- The number of characters by which an unquoted scalar goes on at the first token of a further line.
Further lines stand in column `floor` or further right. -/
def plainFurther (nested : Bool) (floor : Nat) (h : Head) : Nat :=
  if h.column < floor || h.documentMarkerAhead || h.rest.head? == some '#' then 0
  else plainLength nested 0 h.rest

/-- The end of an unquoted scalar whose first line was read up to the head. -/
def plainEnd (nested : Bool) (floor : Nat) : Nat → Head → Head
  | 0, h => h
  | fuel + 1, h =>
    let (gap, next) := h.skip
    if gap.crossed && blankAhead h.skipSpaces.rest then
      match plainFurther nested floor next with
      | 0 => h
      | n + 1 => plainEnd nested floor fuel (next.steps (n + 1))
    else h

def plain (nested : Bool) (floor : Nat) (h : Head) : Option Head :=
  if startsPlain nested h.rest then
    some (plainEnd nested floor h.rest.length (h.steps (plainLength nested 0 h.rest)))
  else none

/-- What an unquoted scalar between two heads stands for. One with more than one line, or with a tab in
the white space after it, is a string. -/
def plainKind (h after : Head) : Kind :=
  if h.line = after.line && !(after.rest.takeWhile isSpace).contains '\t' then
    CoreSchema.kindOf (h.textTo after)
  else .stringScalar

/-- The number of hexadecimal digits after a letter that starts an escape; none for a letter that is
an escape of its own. -/
def escapeDigits? (c : Char) : Option Nat :=
  if c == 'x' then some 2
  else if c == 'u' then some 4
  else if c == 'U' then some 8
  else if "0abt\tnvfre \"/\\N_LP".toList.contains c then some 0
  else none

def escapeLength? : List Char → Option Nat
  | [] => none
  | c :: cs => do
    let digits ← escapeDigits? c
    if (cs.take digits).length = digits ∧ (cs.take digits).all CoreSchema.isHexDigit then
      pure (digits + 1)
    else none

/-- The characters at the start of a line that count as text whatever they are: after dashes or dots
that start no marker, one more. -/
def markerLength : List Char → Nat
  | c :: cs =>
    if c == '-' || c == '.' then (cs.take 2).takeWhile (· == c) |>.length.add 2 else 0
  | [] => 0

/-- Moves over a line break inside a quoted text to the first token of the next line that has one. -/
def quotedBreak (style : FlowStyle) (floor : Nat) (h : Head) : Except Break Head :=
  let (gap, next) := h.skip
  if style.oneLine || next.atEnd || gap.spaces < floor || next.documentMarkerAhead then
    .error { stop := h.mark }
  else .ok (if next.column = 0 then next.steps (markerLength next.rest) else next)

def escape (h : Head) (length : Nat) : Node :=
  h.node .escapeSequence (h.steps length) []

/-- Reads a text in double quotes after its opening quote; gives its escapes. -/
def doubleQuoted (style : FlowStyle) (floor : Nat) : Nat → Head → Except Break (List Node × Head)
  | 0, h => .error { stop := h.mark }
  | fuel + 1, h =>
    match h.rest with
    | [] => .error { stop := h.mark }
    | '"' :: _ => .ok ([], h.step)
    | '\\' :: cs =>
      if cs.head?.any isBreak then do
        let next ← quotedBreak style floor h.step
        let (escapes, after) ← doubleQuoted style floor fuel next
        pure (escape h 1 :: escapes, after)
      else match escapeLength? cs with
        | none => .error { stop := h.mark }
        | some length => do
          let (escapes, after) ← doubleQuoted style floor fuel (h.steps (length + 1))
          pure (escape h (length + 1) :: escapes, after)
    | c :: _ =>
      if isBreak c then do
        let next ← quotedBreak style floor h
        doubleQuoted style floor fuel next
      else if isQuotable c then doubleQuoted style floor fuel h.step
      else .error { stop := h.mark }

/-- Reads a text in single quotes after its opening quote; gives its escapes. -/
def singleQuoted (style : FlowStyle) (floor : Nat) : Nat → Head → Except Break (List Node × Head)
  | 0, h => .error { stop := h.mark }
  | fuel + 1, h =>
    match h.rest with
    | [] => .error { stop := h.mark }
    | '\'' :: '\'' :: _ => do
      let (escapes, after) ← singleQuoted style floor fuel (h.steps 2)
      pure (escape h 2 :: escapes, after)
    | '\'' :: _ => .ok ([], h.step)
    | c :: _ =>
      if isBreak c then do
        let next ← quotedBreak style floor h
        singleQuoted style floor fuel next
      else if isQuotable c then singleQuoted style floor fuel h.step
      else .error { stop := h.mark }

/-- The head after a sigil and the name that follows it. -/
def named (h : Head) : Option Head :=
  if h.step.rest.head?.any isNameChar then some (h.step.stepsWhile isNameChar) else none

/-- The number of characters at the start of a text that satisfy `p` or belong to an escape: a percent
sign with two hexadecimal digits. -/
def escapedLength (p : Char → Bool) : List Char → Nat
  | '%' :: a :: b :: cs =>
    if CoreSchema.isHexDigit a && CoreSchema.isHexDigit b then 3 + escapedLength p cs else 0
  | c :: cs => if p c then 1 + escapedLength p cs else 0
  | [] => 0

/-- The length of the handle that a tag starts with after its first exclamation mark, where there is
one: nothing, or letters and digits and a second exclamation mark. -/
def handleLength? (cs : List Char) : Option Nat :=
  let word := cs.takeWhile isWordChar
  match cs.drop word.length with
  | '!' :: _ => some (word.length + 1)
  | _ => if word.isEmpty then some 0 else none

/-- The head after a tag: an exclamation mark alone, a resource identifier in angle brackets after it,
or a handle and a name. -/
def tag (h : Head) : Option Head :=
  let bang := h.step
  match bang.rest with
  | '<' :: cs =>
    let length := escapedLength isUriChar cs
    if length != 0 && cs[length]? == some '>' then some (bang.steps (length + 2)) else none
  | cs =>
    if blankAhead cs then some bang
    else match handleLength? cs with
      | none => some (bang.steps (escapedLength isTagChar cs))
      | some handle =>
        match escapedLength isTagChar (cs.drop handle) with
        | 0 => none
        | length + 1 => some (bang.steps (handle + length + 1))

/-- The indentation digit of the header of a block scalar, and the head after the header. -/
def blockHeader (h : Head) : Option (Option Nat × Head) :=
  let digit (h : Head) : Option Nat × Head :=
    match h.rest with
    | c :: _ => if '1' ≤ c ∧ c ≤ '9' then (some (c.toNat - '0'.toNat), h.step) else (none, h)
    | [] => (none, h)
  let chomping (h : Head) : Head :=
    match h.rest with
    | c :: _ => if c == '+' || c == '-' then h.step else h
    | [] => h
  let (first, after) := digit h.step
  let signed := chomping after
  let (indent, last) := if first.isNone then digit signed else (first, signed)
  if blankAhead last.rest then some (indent, last) else none

/-- The least column of the lines of a block scalar without an indentation digit: that of its first
line with content. A line of spaces before that raises it, and one with fewer than `least` spaces ends
the search. -/
def blockFloor (least : Nat) : Nat → List Char → Nat
  | _, [] => least
  | spaces, c :: cs =>
    if c == ' ' then blockFloor least (spaces + 1) cs
    else if isBreak c then if spaces < least then least else blockFloor spaces 0 cs
    else max least spaces

/-- The least column of the lines of a block scalar whose header ends at the head, inside a construct
with lines from column `floor` on. -/
def blockIndent (floor : Nat) (digit : Option Nat) (h : Head) : Nat :=
  match digit with
  | some d => floor + d - 1
  | none =>
    let body := h.rest.dropWhile isSpace
    let below := if body.head? == some '#' then body.dropWhile (!isBreak ·) else body
    match below with
    | [] => floor
    | c :: cs => if isBreak c then blockFloor floor 0 cs else blockFloor floor (h.column + 1) (c :: cs)

/-- The head after a line of a block scalar: after its last character that is no white space. -/
def blockLine (h : Head) : Option Head :=
  if h.rest.head?.any isPrintable then
    let first := if h.column = 0 then h.steps (markerLength h.rest) else h
    let line := first.rest.takeWhile fun c => isPrintable c || isSpace c
    some (first.steps (line.reverse.dropWhile isSpace).length)
  else none

def directiveName (h : Head) : Option Head :=
  let name := h.step.stepsWhile isPrintable
  if blankAhead name.rest && h.step.rest.head?.any isPrintable then some name else none

end Lexeme

end PipelineLint.Yaml
