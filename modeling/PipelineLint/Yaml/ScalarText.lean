import PipelineLint.Text.Lines

/-! # Texts of scalars

What quoted and block scalars stand for. In double quotes only the escapes of line feed, tab, quote and
backslash are resolved and all others stay as written. A block scalar loses its first line and the
indentation that its lines have in common; its lines are joined by line feeds, or by spaces if it is
folded.
-/

namespace PipelineLint.Yaml.ScalarText

open Text

/-- Removes one quote at the start and one at the end, after trimming. -/
def unquote (quote : Char) (cs : List Char) : List Char :=
  let inner := match trim cs with
    | c :: rest => if c = quote then rest else c :: rest
    | [] => []
  if inner.getLast? = some quote then inner.dropLast else inner

/-- Resolves the escapes of a text in double quotes. -/
def unescape : List Char → List Char
  | [] => []
  | '\\' :: c :: cs =>
    match c with
    | 'n' => '\n' :: unescape cs
    | 't' => '\t' :: unescape cs
    | '"' => '"' :: unescape cs
    | '\\' => '\\' :: unescape cs
    | c => '\\' :: c :: unescape cs
  | c :: cs => c :: unescape cs

/-- Reads each pair of single quotes as one. -/
def undouble : List Char → List Char
  | '\'' :: '\'' :: cs => '\'' :: undouble cs
  | c :: cs => c :: undouble cs
  | [] => []

def doubleQuoted (raw : List Char) : List Char := unescape (unquote '"' raw)

def singleQuoted (raw : List Char) : List Char := undouble (unquote '\'' raw)

/-- The bytes of blank characters at the start of a line. -/
def indentOf (line : List Char) : Nat := byteLength (line.takeWhile isBlank)

/-- The least indentation of the lines that are not blank. -/
def commonIndent (body : List (List Char)) : Nat :=
  ((body.filter fun line => !allBlank line).map indentOf).min?.getD 0

/-- A line without its first `indent` bytes; nothing is left of a line that cannot be cut there. -/
def dedent (indent : Nat) (line : List Char) : List Char :=
  slice line indent (byteLength line)

def block (raw : List Char) : List Char :=
  let rawLines := lines raw
  let folded := (trimStart (rawLines.head?.getD [])).head? = some '>'
  let body := rawLines.tail
  trim (join (if folded then [' '] else ['\n']) (body.map (dedent (commonIndent body))))

end PipelineLint.Yaml.ScalarText
