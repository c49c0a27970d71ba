import PipelineLint.Text.Lines
import PipelineLint.Yaml.CoreSchema

/-! # Reading heads

A reading head stands between the part of a text that was read and the rest. `Head.skip` moves over the
white space before a token and tells what stands there: whether a line break was crossed and how the
line starts decide which tokens may follow.

The pieces of a YAML text are told apart by classes of characters.
-/

namespace PipelineLint.Yaml

def isSpace (c : Char) : Bool := c == ' ' || c == '\t'

/-- White space or the end of the text comes next. -/
def blankAhead : List Char → Bool
  | [] => true
  | c :: _ => isSpace c || isBreak c

def isPrintable (c : Char) : Bool :=
  let n := c.toNat
  (0x21 ≤ n && n ≤ 0x7e) || n == 0x85 || (0xa0 ≤ n && n ≤ 0xd7ff) || (0xe000 ≤ n && n ≤ 0xfefe) ||
    (0xff00 ≤ n && n ≤ 0xfffd) || 0x10000 ≤ n

def isFlowIndicator (c : Char) : Bool :=
  c == ',' || c == '[' || c == ']' || c == '{' || c == '}'

/-- The characters that start no unquoted scalar. -/
def isIndicator (c : Char) : Bool :=
  isFlowIndicator c || c == '#' || c == '&' || c == '*' || c == '!' || c == '|' || c == '>' ||
    c == '\'' || c == '"' || c == '%' || c == '@' || c == '\x60'

/-- The characters of a quoted text on one line. -/
def isQuotable (c : Char) : Bool := c == '\t' || 0x20 ≤ c.toNat

/-- The characters of the names of anchors and aliases. -/
def isNameChar (c : Char) : Bool := isPrintable c && !isFlowIndicator c

/-- The letters and digits of ASCII, and the hyphen. -/
def isWordChar (c : Char) : Bool := c.isAlphanum || c == '-'

/-- The characters of a tag after its handle, beside escapes. -/
def isTagChar (c : Char) : Bool :=
  isWordChar c || "#;/?:@&=+$_.~*'()".toList.contains c

/-- The characters of a resource identifier, beside escapes. -/
def isUriChar (c : Char) : Bool :=
  isTagChar c || c == ',' || c == '!' || c == '[' || c == ']'

/-- A place in a text and what lies ahead. Rows count line feeds only; for indentation each carriage
return starts a line too. -/
structure Head where
  mark : Mark := {}
  line : Nat := 0
  column : Nat := 0
  rest : List Char
  deriving Repr, Inhabited

/-- The white space before a token. -/
structure Gap where
  crossed : Bool := false
  /-- The spaces of its last line before any tab. -/
  spaces : Nat := 0
  /-- A tab stands in its last line. -/
  tabbed : Bool := false
  deriving DecidableEq, Repr, Inhabited

namespace Gap

def add (g : Gap) (c : Char) : Gap :=
  if isBreak c then { crossed := true }
  else if c = '\t' then { g with tabbed := true }
  else if g.tabbed then g
  else { g with spaces := g.spaces + 1 }

end Gap

namespace Head

/-- The head at the start of a text, which ends at its first null character. A byte order mark is
passed over without starting a column of indentation. -/
def ofText (source : List Char) : Head :=
  match source.takeWhile (· != '\x00') with
  | '\ufeff' :: cs => { mark := ⟨3, 0, 3⟩, rest := cs }
  | cs => { rest := cs }

def step (h : Head) : Head :=
  match h.rest with
  | [] => h
  | c :: cs =>
    if isBreak c then ⟨h.mark.next c, h.line + 1, 0, cs⟩
    else ⟨h.mark.next c, h.line, h.column + 1, cs⟩

def steps : Nat → Head → Head
  | 0, h => h
  | n + 1, h => steps n h.step

/-- The head after the longest run of characters that satisfy `p`. -/
def stepsWhile (p : Char → Bool) (h : Head) : Head :=
  h.steps (h.rest.takeWhile p).length

def atEnd (h : Head) : Bool := h.rest.isEmpty

def skipSpaces (h : Head) : Head := h.stepsWhile isSpace

/-- Passes over white space and line breaks; tells what they were. -/
def skip (h : Head) : Gap × Head :=
  go h.rest {} h
where
  /-- Passes over the white space that a text starts with. -/
  go : List Char → Gap → Head → Gap × Head
    | [], g, h => (g, h)
    | c :: cs, g, h => if isSpace c || isBreak c then go cs (g.add c) h.step else (g, h)

/-- A line of three equal characters that starts or ends a document comes next. -/
def markerAhead (c : Char) (h : Head) : Bool :=
  h.column == 0 && match h.rest with
    | a :: b :: d :: rest => a == c && b == c && d == c && blankAhead rest
    | _ => false

/-- The start or the end of a document comes next. -/
def documentMarkerAhead (h : Head) : Bool := h.markerAhead '-' || h.markerAhead '.'

def textTo (h after : Head) : List Char :=
  Text.slice h.rest 0 (after.mark.offset - h.mark.offset)

/-- The node of a piece of text between a head and a later one. -/
def node (h : Head) (kind : Kind) (after : Head) (children : List Node) : Node :=
  { kind, start := h.mark, stop := after.mark, children }

def comment (h : Head) : Node × Head :=
  let after := h.stepsWhile (!isBreak ·)
  (h.node .comment after [], after)

end Head

end PipelineLint.Yaml
