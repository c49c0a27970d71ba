import PipelineLint.Concrete.Loader.Fault

/-! # Characters of YAML text

A cursor is a place in a text with the characters that follow. Besides line feed and carriage return, three
characters of Unicode break lines.
-/

namespace PipelineLint.Load

def isBreak (c : Char) : Bool :=
  let n := c.toNat
  n == 10 || n == 13 || n == 0x85 || n == 0x2028 || n == 0x2029

def isSpaceOrTab (c : Char) : Bool := c == ' ' || c == '\t'

/-- A character of the names of anchors and directives. -/
def isWordChar (c : Char) : Bool := c.isAlphanum || c == '_' || c == '-'

def isAllowed (c : Char) : Bool :=
  let n := c.toNat
  n == 9 || n == 10 || n == 13 || (0x20 ≤ n && n ≤ 0x7E) || n == 0x85 || (0xA0 ≤ n && n ≤ 0xD7FF) ||
    (0xE000 ≤ n && n ≤ 0xFFFD) || 0x10000 ≤ n

/-- The text goes on with a blank character or a line break, or is at its end. -/
def atBlank : List Char → Bool
  | [] => true
  | c :: _ => isSpaceOrTab c || isBreak c

def atSpaceOrTab (cs : List Char) : Bool := cs.head?.any isSpaceOrTab

def atBreak (cs : List Char) : Bool := cs.head?.any isBreak

/-- The text goes on with three points or three hyphens that stand alone. -/
def atDocumentMark : List Char → Bool
  | '-' :: '-' :: '-' :: cs => atBlank cs
  | '.' :: '.' :: '.' :: cs => atBlank cs
  | _ => false

structure Cursor where
  rest : List Char
  mark : Mark := {}
  deriving Repr, Inhabited

namespace Cursor

/-- Goes on by some characters of a line. -/
def advance (n : Nat) (c : Cursor) : Cursor :=
  ⟨c.rest.drop n, ⟨c.mark.line, c.mark.column + n, c.mark.index + n⟩⟩

/-- Goes on by the characters of a line that satisfy `p`. -/
def skipWhile (p : Char → Bool) (c : Cursor) : Cursor := c.advance (c.rest.takeWhile p).length

def skipLine (c : Cursor) : Cursor := c.skipWhile fun x => !isBreak x

/-- Goes on behind a line break of some characters. -/
def newLine (n : Nat) (c : Cursor) : Cursor :=
  ⟨c.rest.drop n, ⟨c.mark.line + 1, 0, c.mark.index + n⟩⟩

/-- Goes on behind the line break at the cursor, with the break as it counts in a text. -/
def readBreak (c : Cursor) : List Char × Cursor :=
  match c.rest with
  | '\r' :: '\n' :: _ => (['\n'], c.newLine 2)
  | b :: _ =>
    if b.toNat == 0x2028 || b.toNat == 0x2029 then ([b], c.newLine 1)
    else if isBreak b then (['\n'], c.newLine 1)
    else ([], c)
  | [] => ([], c)

def fault (c : Cursor) (problem : Problem) : Fault := ⟨problem, c.mark⟩

def atDocumentMark (c : Cursor) : Bool := c.mark.column == 0 && Load.atDocumentMark c.rest

end Cursor

/-- What lies between two words of a scalar: blanks, or line breaks. -/
structure Gap where
  blanks : List Char := []
  first : List Char := []
  more : List Char := []
  isBroken : Bool := false
  deriving Repr, Inhabited

namespace Gap

/-- The text that stands for a gap: one line break counts as a space, further ones as themselves. -/
def text (g : Gap) : List Char :=
  if !g.isBroken then g.blanks
  else if g.first.head? == some '\n' then if g.more.isEmpty then [' '] else g.more
  else g.first ++ g.more

/-- Reads the blanks and line breaks at the cursor. In lines after the first one, tabs before the column
`indent` are a problem. -/
def read (indent : Nat) : Nat → Gap → Cursor → Except Fault (Gap × Cursor)
  | 0, g, c => .ok (g, c)
  | fuel + 1, g, c =>
    if atSpaceOrTab c.rest then
      if g.isBroken && c.mark.column < indent && c.rest.head? == some '\t' then .error (c.fault .plainTab)
      else if g.isBroken then read indent fuel g (c.advance 1)
      else read indent fuel { g with blanks := g.blanks ++ c.rest.take 1 } (c.advance 1)
    else if atBreak c.rest then
      let (text, next) := c.readBreak
      if g.isBroken then read indent fuel { g with more := g.more ++ text } next
      else read indent fuel { g with blanks := [], first := text, isBroken := true } next
    else .ok (g, c)

end Gap

end PipelineLint.Load
