import PipelineLint.Concrete.Loader.Token
import PipelineLint.Text.Integer

/-! # Tags and directives in YAML text

A tag is a handle between exclamation marks and the rest of an address. Directives stand in lines of their own
before a document; they give the version of the language, or say what a handle stands for.
-/

namespace PipelineLint.Load

/-- The characters of addresses besides those of words and escapes. -/
def uriMarks : List Char :=
  [';', '/', '?', ':', '@', '&', '=', '+', '$', '.', '!', '~', '*', '\'', '(', ')']

/-- The number of bytes of a character whose first byte is given. -/
def byteCount? (first : Nat) : Option Nat :=
  if first < 0x80 then some 1
  else if first < 0xC0 then none
  else if first < 0xE0 then some 2
  else if first < 0xF0 then some 3
  else if first < 0xF8 then some 4
  else none

def escapedByte (c : Cursor) : Except Fault (Nat × Cursor) :=
  match c.rest with
  | '%' :: a :: b :: _ => match Text.ofHex? [a, b] with
    | some n => .ok (n, c.advance 3)
    | none => .error (c.fault .uriOctet)
  | _ => .error (c.fault .uriOctet)

def trailingBytes : Nat → Nat → Cursor → Except Fault (Nat × Cursor)
  | 0, value, c => .ok (value, c)
  | n + 1, value, c => do
    let (byte, next) ← escapedByte c
    if byte / 64 = 2 then trailingBytes n (value * 64 + byte % 64) next
    else throw (c.fault .uriTrailing)

def escapedChar (c : Cursor) : Except Fault (Char × Cursor) := do
  let (first, next) ← escapedByte c
  match byteCount? first with
  | none => throw (c.fault .uriLeading)
  | some 1 => pure (Char.ofNat first, next)
  | some n =>
    let (value, c) ← trailingBytes (n - 1) (first % Nat.pow 2 (7 - n)) next
    pure (Char.ofNat value, c)

def uri (isVerbatim : Bool) : Nat → Cursor → Except Fault (List Char × Cursor)
  | 0, c => .ok ([], c)
  | fuel + 1, c =>
    match c.rest with
    | [] => .ok ([], c)
    | x :: _ => do
      if x == '%' then
        let (y, c) ← escapedChar c
        let (more, c) ← uri isVerbatim fuel c
        pure (y :: more, c)
      else if isWordChar x || uriMarks.contains x || (isVerbatim && [',', '[', ']'].contains x) then
        let (more, c) ← uri isVerbatim fuel (c.advance 1)
        pure (x :: more, c)
      else pure ([], c)

/-- Reads an address of one character at least. -/
def uriOfSome (isVerbatim : Bool) (c : Cursor) : Except Fault (List Char × Cursor) := do
  let (text, c) ← uri isVerbatim (c.rest.length + 1) c
  if text.isEmpty then throw (c.fault .tagUri) else pure (text, c)

/-- Reads the handle of a tag. In a directive it ends with an exclamation mark. -/
def tagHandle (inDirective : Bool) (c : Cursor) : Except Fault (List Char × Cursor) :=
  if c.rest.head? != some '!' then .error (c.fault .tagMark)
  else
    let word := (c.rest.drop 1).takeWhile isWordChar
    let c := c.advance (1 + word.length)
    if c.rest.head? == some '!' then .ok ('!' :: word ++ ['!'], c.advance 1)
    else if inDirective && !word.isEmpty then .error (c.fault .tagMark)
    else .ok ('!' :: word, c)

def readTag (c : Cursor) : Except Fault (List Char × List Char × Cursor) := do
  if (c.rest.drop 1).head? == some '<' then
    let (text, c) ← uriOfSome true (c.advance 2)
    if c.rest.head? == some '>' then pure ([], text, c.advance 1) else throw (c.fault .tagBracket)
  else
    let (handle, c) ← tagHandle false c
    if handle.length > 1 && handle.getLast? == some '!' then
      let (text, c) ← uriOfSome false c
      pure (handle, text, c)
    else
      let (more, c) ← uri false (c.rest.length + 1) c
      let text := handle.drop 1 ++ more
      pure (if text.isEmpty then ([], ['!'], c) else (['!'], text, c))

def versionNumber (c : Cursor) : Except Fault (Nat × Cursor) :=
  let digits := c.rest.takeWhile Char.isDigit
  if digits.isEmpty then .error (c.fault .versionNumber)
  else if digits.length > 9 then .error ((c.advance 9).fault .longVersionNumber)
  else .ok (Text.ofDigits digits, c.advance digits.length)

def versionDirective (c : Cursor) : Except Fault (TokenKind × Cursor) := do
  let (major, c) ← versionNumber (c.skipWhile isSpaceOrTab)
  if c.rest.head? != some '.' then throw (c.fault .versionPoint)
  else
    let (minor, c) ← versionNumber (c.advance 1)
    pure (.version major minor, c)

def tagDirective (c : Cursor) : Except Fault (TokenKind × Cursor) := do
  let (handle, c) ← tagHandle true (c.skipWhile isSpaceOrTab)
  if !atSpaceOrTab c.rest then throw (c.fault .tagBlank)
  else
    let (meaning, c) ← uriOfSome true (c.skipWhile isSpaceOrTab)
    if atBlank c.rest then pure (.tagHandle handle meaning, c) else throw (c.fault .tagEnd)

def readDirective (c : Cursor) : Except Fault (TokenKind × Cursor) := do
  let c := c.advance 1
  let name := c.rest.takeWhile isWordChar
  let c := c.advance name.length
  if name.isEmpty then throw (c.fault .directiveName)
  if !atBlank c.rest then throw (c.fault .directiveNameEnd)
  let (kind, c) ←
    if name == "YAML".toList then versionDirective c
    else if name == "TAG".toList then tagDirective c
    else throw (c.fault .unknownDirective)
  let c := c.skipWhile isSpaceOrTab
  let c := if c.rest.head? == some '#' then c.skipLine else c
  if c.rest.isEmpty || atBreak c.rest then pure (kind, c.readBreak.2) else throw (c.fault .directiveEnd)

namespace Scanner

def directive (s : Scanner) : Except Fault Scanner := do
  let s ← (s.closeTo (-1)).dropKey
  let (kind, c) ← readDirective s.cursor
  pure { s.push kind s.cursor.mark with cursor := c, allowsKey := false }

def tag (s : Scanner) : Except Fault Scanner := do
  let s ← s.startKey
  let (handle, text, c) ← readTag s.cursor
  if atBlank c.rest || (s.inFlow && c.rest.head? == some ',') then
    pure { s.push (.tag handle text) s.cursor.mark with cursor := c, allowsKey := false }
  else throw (c.fault .tagEnd)

/-- The characters with a meaning of their own at the start of a scalar. -/
def indicators : List Char :=
  ['-', '?', ':', ',', '[', ']', '\x7b', '\x7d', '#', '&', '*', '!', '|', '>', '\'', '"', '%', '@',
   Char.ofNat 96]

/-- A character that a plain scalar can start with, whatever follows. -/
def startsPlain (x : Char) : Bool := !(isSpaceOrTab x || isBreak x || indicators.contains x)

def readToken (s : Scanner) : Except Fault Scanner :=
  let isFirst := s.cursor.mark.column == 0
  match s.cursor.rest with
  | [] => s.streamEnd
  | x :: cs =>
    if isFirst && x == '%' then s.directive
    else if s.cursor.atDocumentMark then s.documentMark (if x == '-' then .documentStart else .documentEnd)
    else if x == '[' then s.openFlow .flowSequenceStart
    else if x == '\x7b' then s.openFlow .flowMappingStart
    else if x == ']' then s.closeFlow .flowSequenceEnd
    else if x == '\x7d' then s.closeFlow .flowMappingEnd
    else if x == ',' then s.flowEntry
    else if x == '-' && atBlank cs then s.blockEntry
    else if x == '?' && (s.inFlow || atBlank cs) then s.explicitKey
    else if x == ':' && (s.inFlow || atBlank cs) then s.value
    else if x == '*' then s.name .alias
    else if x == '&' then s.name .anchor
    else if x == '!' then s.tag
    else if x == '|' && !s.inFlow then s.blockScalar true
    else if x == '>' && !s.inFlow then s.blockScalar false
    else if x == '\'' || x == '"' then s.quotedScalar x
    else if startsPlain x || (x == '-' && !atSpaceOrTab cs) ||
        (!s.inFlow && (x == '?' || x == ':') && !atBlank cs) then s.plainScalar
    else s.fault .cannotStart

def step (s : Scanner) : Except Fault Scanner := do
  let s ← (skipGap (s.cursor.rest.length + 1) s).dropStale
  (s.closeTo s.cursor.mark.column).readToken

/-- The first waiting token may still become a key. -/
def mayBeKey (s : Scanner) : Bool :=
  (s.key :: s.flowKeys).any fun key => key.any (·.index == s.given)

def give (s : Scanner) : Nat → List Token × Scanner
  | 0 => ([], s)
  | n + 1 => match s.waiting with
    | [] => ([], s)
    | token :: waiting =>
      if s.mayBeKey then ([], s)
      else
        let (tokens, s) := give { s with waiting, given := s.given + 1 } n
        (token :: tokens, s)

def run : Nat → Scanner → List Token × Option Fault
  | 0, _ => ([], none)
  | fuel + 1, s =>
    if s.isDone then ([], none)
    else match s.step with
      | .error fault => ([], some fault)
      | .ok s => match s.dropStale with
        | .error fault => ([], some fault)
        | .ok s =>
          let (tokens, s) := s.give s.waiting.length
          let (more, fault) := run fuel s
          (tokens ++ more, fault)

end Scanner

/-- The first character that a text cannot hold, as a problem. `offset` is the number of bytes before the
text. -/
def forbidden? (offset : Nat) : List Char → Option Fault
  | [] => none
  | c :: cs => if isAllowed c then forbidden? (offset + c.utf8Size) cs else some ⟨.controlCharacter offset, {}⟩

/-- The tokens of a text, with the problem that ends them. A byte order mark counts as a character: what follows it
does not start its line. -/
def tokens (text : List Char) : List Token × Option Fault :=
  match forbidden? 0 text with
  | some fault => ([], some fault)
  | none => Scanner.run (text.length + 2) { cursor := ⟨text, {}⟩ }

end PipelineLint.Load
