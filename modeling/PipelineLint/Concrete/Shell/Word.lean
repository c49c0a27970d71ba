import PipelineLint.Text.Lines

/-! # Words of shell scripts

A shell script is a sequence of words, operators, redirections and line ends. A word consists of pieces: text
with and without quotes, and what is put in when the script runs. `Token.ofScript` cuts a script into tokens;
a document that follows a redirection stands in its token.
-/

namespace PipelineLint.Shell

/-- A piece of a word. Quoted pieces are not split into fields. -/
inductive Piece where
  | text (quoted : Bool) (text : List Char)
  /-- The value of a parameter, by what stands between braces or after the sign. -/
  | parameter (quoted : Bool) (expression : List Char)
  | command (quoted : Bool) (script : List Char)
  | arithmetic (quoted : Bool) (expression : List Char)
  deriving DecidableEq, Repr, Inhabited

abbrev Word := List Piece

inductive Token where
  | word (word : Word)
  | operator (mark : String)
  | redirect (stream : Nat) (mark : String)
  | document (stream : Nat) (body : Word)
  /-- The rest of the script cannot be cut into tokens. -/
  | broken
  deriving DecidableEq, Repr, Inhabited

def isNameChar (c : Char) : Bool := c.isAlphanum || c == '_'

def grave : Char := Char.ofNat 96

def specialNames : List Char := ['@', '*', '#', '?', '$', '!', '-']

def untilQuote : List Char → List Char × List Char
  | [] => ([], [])
  | '\\' :: c :: cs => let (body, rest) := untilQuote cs; ('\\' :: c :: body, rest)
  | c :: cs => if c == '"' then ([], cs) else let (body, rest) := untilQuote cs; (c :: body, rest)

/-- A text up to the sign that closes it and the rest; `depth` more are open. Signs between quotes do not
count. Every step uses up a character, so that the length of the text is enough fuel. -/
def enclosed? (opening closing : Char) : Nat → Nat → List Char → Option (List Char × List Char)
  | 0, _, _ => none
  | _, _, [] => none
  | fuel + 1, depth, '\\' :: c :: cs =>
    (enclosed? opening closing fuel depth cs).map fun (body, rest) => ('\\' :: c :: body, rest)
  | fuel + 1, depth, c :: cs =>
    if c == '\'' && opening == '(' then
      let body := cs.takeWhile (· != '\'')
      (enclosed? opening closing fuel depth ((cs.dropWhile (· != '\'')).drop 1)).map
        fun (more, rest) => (c :: body ++ c :: more, rest)
    else if c == '"' then
      let (body, after) := untilQuote cs
      (enclosed? opening closing fuel depth after).map fun (more, rest) => (c :: body ++ c :: more, rest)
    else if c == closing then
      match depth with
      | 0 => some ([], cs)
      | depth + 1 =>
        (enclosed? opening closing fuel depth cs).map fun (body, rest) => (c :: body, rest)
    else
      (enclosed? opening closing fuel (if c == opening then depth + 1 else depth) cs).map
        fun (body, rest) => (c :: body, rest)

/-- A script between grave accents and the rest: a backslash before some signs is left out. -/
def untilGrave? : List Char → Option (List Char × List Char)
  | [] => none
  | '\\' :: c :: cs => do
    let (body, rest) ← untilGrave? cs
    pure (if c == grave || c == '\\' || c == '$' then (c :: body, rest) else ('\\' :: c :: body, rest))
  | c :: cs => if c == grave then some ([], cs) else (untilGrave? cs).map fun (body, rest) => (c :: body, rest)

def afterDollar? (quoted : Bool) (cs : List Char) : Option (Piece × List Char) :=
  match cs with
  | '(' :: rest => do
    let (body, rest) ← enclosed? '(' ')' (rest.length + 1) 0 rest
    match body.head?, body.getLast? with
    | some '(', some ')' => pure (.arithmetic quoted (body.drop 1).dropLast, rest)
    | _, _ => pure (.command quoted body, rest)
  | '{' :: rest => do
    let (body, rest) ← enclosed? '{' '}' (rest.length + 1) 0 rest
    pure (.parameter quoted body, rest)
  | c :: rest =>
    if specialNames.contains c || c.isDigit then some (.parameter quoted [c], rest)
    else if isNameChar c then
      some (.parameter quoted (cs.takeWhile isNameChar), cs.dropWhile isNameChar)
    else none
  | [] => none

/-- Adds a character to the pieces of a word, the last piece first. -/
def addChar (quoted : Bool) (c : Char) : Word → Word
  | .text q t :: pieces => if q == quoted then .text q (t ++ [c]) :: pieces
    else .text quoted [c] :: .text q t :: pieces
  | pieces => .text quoted [c] :: pieces

/-- Reads a text in which only dollar signs, grave accents and backslashes have a meaning, up to a double
quote if it stands between such; `pieces` has the last piece first. -/
def quoted? (between : Bool) : Nat → Word → List Char → Option (Word × List Char)
  | 0, _, _ => none
  | _, pieces, [] => if between then none else some (pieces, [])
  | fuel + 1, pieces, '\\' :: '\n' :: cs => quoted? between fuel pieces cs
  | fuel + 1, pieces, '\\' :: c :: cs =>
    if c == '\\' || c == '$' || c == grave || (between && c == '"') then
      quoted? between fuel (addChar true c pieces) cs
    else quoted? between fuel (addChar true c (addChar true '\\' pieces)) cs
  | fuel + 1, pieces, c :: cs =>
    if c == '"' && between then some (pieces, cs)
    else if c == '$' then match afterDollar? true cs with
      | some (piece, rest) => quoted? between fuel (piece :: pieces) rest
      | none => quoted? between fuel (addChar true '$' pieces) cs
    else if c == grave then do
      let (script, rest) ← untilGrave? cs
      quoted? between fuel (.command true script :: pieces) rest
    else quoted? between fuel (addChar true c pieces) cs

/-- Reads a text that is one word, with blanks and operators in it; `pieces` has the last piece first. -/
def unbroken? : Nat → Word → List Char → Option Word
  | 0, _, _ => none
  | _, pieces, [] => some pieces.reverse
  | fuel + 1, pieces, '\\' :: c :: cs => unbroken? fuel (addChar true c pieces) cs
  | fuel + 1, pieces, c :: cs =>
    if c == '\'' then
      unbroken? fuel (.text true (cs.takeWhile (· != '\'')) :: pieces) ((cs.dropWhile (· != '\'')).drop 1)
    else if c == '"' then do
      let (pieces, rest) ← quoted? true (cs.length + 1) (.text true [] :: pieces) cs
      unbroken? fuel pieces rest
    else if c == '$' then match afterDollar? false cs with
      | some (piece, rest) => unbroken? fuel (piece :: pieces) rest
      | none => unbroken? fuel (addChar false '$' pieces) cs
    else if c == grave then do
      let (script, rest) ← untilGrave? cs
      unbroken? fuel (.command false script :: pieces) rest
    else unbroken? fuel (addChar false c pieces) cs

/-- A text without its double quotes, but with those after a backslash. -/
def withoutQuotes : List Char → List Char
  | [] => []
  | '\\' :: c :: cs => if c == '"' then c :: withoutQuotes cs else '\\' :: c :: withoutQuotes cs
  | c :: cs => if c == '"' then withoutQuotes cs else c :: withoutQuotes cs

/-- A text as one word; between quotes only dollar signs, grave accents and backslashes have a meaning. -/
def wordOf? (isQuoted : Bool) (cs : List Char) : Option Word :=
  if isQuoted then (quoted? false (cs.length + 1) [] (withoutQuotes cs)).map fun (pieces, _) => pieces.reverse
  else unbroken? (cs.length + 1) [] cs

namespace Token

/-- The word that ends a document: whether a part of it is quoted, its text, and the rest. -/
def delimiter : List Char → Bool × List Char × List Char
  | [] => (false, [], [])
  | '\\' :: c :: cs => let (_, last, rest) := delimiter cs; (true, c :: last, rest)
  | c :: cs =>
    if c == '\'' || c == '"' then let (_, last, rest) := delimiter cs; (true, last, rest)
    else if [' ', '\t', '\n', ';', '&', '|', '<', '>', '(', ')'].contains c then (false, [], c :: cs)
    else let (quoted, last, rest) := delimiter cs; (quoted, c :: last, rest)

def documentLines (stripped : Bool) (last : List Char) : List (List Char) → List Char × List (List Char)
  | [] => ([], [])
  | line :: lines =>
    let shown := if stripped then line.dropWhile (· == '\t') else line
    if shown == last then ([], lines)
    else
      let (body, rest) := documentLines stripped last lines
      (shown ++ '\n' :: body, rest)

/-- Reads a document after its operator: its body, and the text without operator and body. -/
def document? (cs : List Char) : Option (Word × List Char) := do
  let (stripped, cs) := match cs with
    | '-' :: rest => (true, rest)
    | _ => (false, cs)
  let (quoted, last, rest) := delimiter (cs.dropWhile fun c => c == ' ' || c == '\t')
  let line := rest.takeWhile (· != '\n')
  let (body, below) := documentLines stripped last
    (Text.splitAtChar '\n' ((rest.dropWhile (· != '\n')).drop 1))
  let after := line ++ '\n' :: Text.join ['\n'] below
  if quoted then pure ([.text true body], after)
  else
    let (pieces, _) ← quoted? false (body.length + 1) [] body
    pure (pieces.reverse, after)

def operators : List String := [";;", "&&", "||", ";", "&", "|", "(", ")"]

/-- The redirections, longer ones first; `extended` adds those that not every shell has. -/
def redirections (extended : Bool) : List String :=
  (if extended then ["&>>", "&>", "<<<"] else []) ++ [">>", ">&", "<&", ">|", "<>", ">", "<"]

/-- The first of some signs that a text starts with, and the rest. -/
def leading? (signs : List String) (cs : List Char) : Option (String × List Char) :=
  signs.findSome? fun sign => (Text.dropPrefix? sign.toList cs).map fun rest => (sign, rest)

def stream? : Word → Option Nat
  | [.text false [c]] => if c.isDigit then some (c.toNat - '0'.toNat) else none
  | _ => none

/-- The tokens of a script. `pending` are the pieces of the word that has begun, the last piece first. -/
def read (extended : Bool) : Nat → Option Word → List Char → List Token
  | 0, _, _ => [.broken]
  | fuel + 1, pending, cs =>
    let isText (cs : List Char) : Bool := extended && Text.startsWith cs ['<']
    let closed : List Token := (pending.map fun pieces => .word pieces.reverse).toList
    let started := pending.getD []
    let redirected (direction : Nat) : List Token × Nat := match pending.bind stream? with
      | some stream => ([], stream)
      | none => (closed, direction)
    match cs with
    | [] => closed
    | '\\' :: '\n' :: rest => read extended fuel pending rest
    | '\\' :: c :: rest => read extended fuel (some (addChar true c started)) rest
    | '\n' :: rest => closed ++ .operator "\n" :: read extended fuel none rest
    | '<' :: '<' :: rest =>
      let (before, stream) := redirected 0
      if isText rest then before ++ .redirect stream "<<<" :: read extended fuel none (rest.drop 1)
      else match document? rest with
        | some (body, rest) => before ++ .document stream body :: read extended fuel none rest
        | none => before ++ [.broken]
    | '\'' :: rest =>
      let body := rest.takeWhile (· != '\'')
      match rest.dropWhile (· != '\'') with
      | [] => closed ++ [.broken]
      | _ :: rest => read extended fuel (some (.text true body :: started)) rest
    | '"' :: rest =>
      match quoted? true (rest.length + 1) (.text true [] :: started) rest with
      | some (pieces, rest) => read extended fuel (some pieces) rest
      | none => closed ++ [.broken]
    | '$' :: rest => match afterDollar? false rest with
      | some (piece, rest) => read extended fuel (some (piece :: started)) rest
      | none => read extended fuel (some (addChar false '$' started)) rest
    | c :: rest =>
      if c == ' ' || c == '\t' then closed ++ read extended fuel none rest
      else if c == '#' && pending.isNone then read extended fuel none (rest.dropWhile (· != '\n'))
      else if c == grave then match untilGrave? rest with
        | some (script, rest) => read extended fuel (some (.command false script :: started)) rest
        | none => closed ++ [.broken]
      else match leading? (redirections extended) (c :: rest) with
        | some (mark, rest) =>
          let (before, stream) := redirected (if c == '<' then 0 else 1)
          before ++ .redirect stream mark :: read extended fuel none rest
        | none => match leading? operators (c :: rest) with
          | some (mark, rest) => closed ++ .operator mark :: read extended fuel none rest
          | none => read extended fuel (some (addChar false c started)) rest

/-- The tokens of a script. Every step but the last uses up a character. -/
def ofScript (extended : Bool) (script : List Char) : List Token :=
  read extended (2 * script.length + 2) none script

end Token

end PipelineLint.Shell
