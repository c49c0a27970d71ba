import PipelineLint.Concrete.Shell.Expression
import PipelineLint.Concrete.Shell.Options

/-! # Edits

An edit changes some lines of a text: it replaces what an expression matches, leaves lines out, or repeats them.
-/

namespace PipelineLint.Shell.Utility

open Text Process

structure Edit where
  /-- The lines that are changed: one by its number, the last one, or those that an expression matches. -/
  number : Option Nat := none
  last : Bool := false
  wanted : Option Expression := none
  /-- Lines are replaced (`s`), left out (`d`), printed once more (`p`), or the last to be read (`q`). -/
  kind : Char
  search : Expression := .nothing
  replacement : List Char := []
  everywhere : Bool := false
  prints : Bool := false
  deriving Inhabited

namespace Edit

/-- A text up to a sign without a backslash before it, and the rest after the sign. -/
def upTo? (sign : Char) : List Char → Option (List Char × List Char)
  | [] => none
  | '\\' :: c :: cs => (upTo? sign cs).map fun (body, rest) =>
      (if c == sign then c :: body else '\\' :: c :: body, rest)
  | c :: cs => if c == sign then some ([], cs) else (upTo? sign cs).map fun (body, rest) => (c :: body, rest)

/-- Reads the lines that a change concerns. -/
def address? (extended : Bool) (cs : List Char) : Option (Edit × List Char) :=
  match cs with
  | '$' :: rest => some ({ last := true, kind := 'p' }, rest)
  | '/' :: rest => (upTo? '/' rest).map fun (wanted, rest) =>
      ({ wanted := some (Expression.read extended wanted), kind := 'p' }, rest)
  | _ =>
    let number := cs.takeWhile Char.isDigit
    some ({ number := digits? number, kind := 'p' }, cs.drop number.length)

def isSeparator (c : Char) : Bool := c == ';' || c == '\n' || c == ' '

def read? (extended : Bool) (cs : List Char) : Option (Edit × List Char) := do
  let (edit, rest) ← address? extended cs
  match rest with
  | 's' :: sign :: rest =>
    let (search, rest) ← upTo? sign rest
    let (replacement, rest) ← upTo? sign rest
    let flags := rest.takeWhile (!isSeparator ·)
    pure ({ edit with
      kind := 's', search := Expression.read extended search, replacement
      everywhere := flags.contains 'g', prints := flags.contains 'p' }, rest.drop flags.length)
  | kind :: rest =>
    if ['d', 'p', 'q'].contains kind && (rest.head?.map isSeparator).getD true then
      pure ({ edit with kind }, rest)
    else none
  | [] => none

def readAll? (extended : Bool) : Nat → List Char → Option (List Edit)
  | 0, _ => none
  | fuel + 1, cs =>
    match cs.dropWhile isSeparator with
    | [] => some []
    | cs => do
      let (edit, rest) ← read? extended cs
      (readAll? extended fuel rest).map (edit :: ·)

def concerns (e : Edit) (line : List Char) (number : Nat) (isLast : Bool) : Bool :=
  e.number.all (· == number) && (!e.last || isLast) &&
    e.wanted.all fun wanted => (wanted.find? true line).isSome

/-- A replacement with the found text and the texts of groups in their places. -/
def filled (m : Expression.Match) : List Char → List Char
  | '\\' :: 'n' :: cs => '\n' :: filled m cs
  | '\\' :: 't' :: cs => '\t' :: filled m cs
  | '\\' :: c :: cs =>
    if c.isDigit then
      ((m.groups.find? (·.1 == digitValue c)).map (·.2)).getD (if c == '0' then m.found else []) ++ filled m cs
    else c :: filled m cs
  | c :: cs => if c == '&' then m.found ++ filled m cs else c :: filled m cs
  | [] => []

def replaced (e : Edit) : Nat → Bool → List Char → List Char × Bool
  | 0, _, line => (line, false)
  | fuel + 1, isStart, line => match e.search.find? isStart line with
    | none => (line, false)
    | some m =>
      let start := m.before ++ filled m e.replacement
      if !e.everywhere then (start ++ m.rest, true)
      else match m.found, m.rest with
        | [], [] => (start, true)
        | [], c :: rest => (start ++ c :: (replaced e fuel false rest).1, true)
        | _, [] => (start, true)
        | _, rest => (start ++ (replaced e fuel false rest).1, true)

/-- What becomes of a line: the lines that are printed for it, and whether it is the last one. -/
def apply (quiet : Bool) (number : Nat) (isLast : Bool) : List Edit → List Char → List (List Char) × Bool
  | [], line => (if quiet then [] else [line], false)
  | e :: edits, line =>
    if !e.concerns line number isLast then apply quiet number isLast edits line
    else match e.kind with
      | 'd' => ([], false)
      | 'q' => (if quiet then [] else [line], true)
      | 's' =>
        let (line, found) := e.replaced (line.length + 2) true line
        let (more, ends) := apply quiet number isLast edits line
        (if found && e.prints then line :: more else more, ends)
      | _ =>
        let (more, ends) := apply quiet number isLast edits line
        (line :: more, ends)

/-- What becomes of lines, the first of which has a number; and whether something is printed for the last one. -/
def applyAll (quiet : Bool) (edits : List Edit) (number : Nat) : List (List Char) → List (List Char) × Bool
  | [] => ([], false)
  | line :: lines =>
    let (shown, ends) := apply quiet number lines.isEmpty edits line
    if ends || lines.isEmpty then (shown, lines.isEmpty && !shown.isEmpty)
    else
      let (more, reachesEnd) := applyAll quiet edits (number + 1) lines
      (shown ++ more, reachesEnd)

end Edit

def sed (p : Process) (words : List String) : Process :=
  let (found, words) := options ['e'] words
  let given := (found.filter (·.1 == 'e')).map (·.2)
  let script := if given.isEmpty then words.headD "" else "\n".intercalate given
  let paths := if given.isEmpty then words.drop 1 else words
  let extended := has found 'E' || has found 'r'
  match Edit.readAll? extended (script.length + 1) script.toList with
  | none => p.complain "sed" "unknown command" 1
  | some edits =>
    let (texts, after) := p.contents "sed" paths
    let text := texts.flatMap (·.2)
    let (shown, reachesEnd) := Edit.applyAll (has found 'n') edits 1 (rows text)
    let isOpen := reachesEnd && text.getLast? != some '\n'
    guarded p "sed" "neEr" found
      (after.print (if shown.isEmpty then [] else join ['\n'] shown ++ if isOpen then [] else ['\n']))

end PipelineLint.Shell.Utility
