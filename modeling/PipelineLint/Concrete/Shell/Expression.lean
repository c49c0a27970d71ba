import PipelineLint.Concrete.Shell.Pattern
import PipelineLint.Text.Integer

/-! # Expressions

The expressions that lines of a text are searched for: characters of sets, alternatives, repetitions and groups,
whose texts can be asked for again. They are written in two ways: in the `extended` one, parentheses, braces, bars,
plus and question marks have a meaning without a backslash, and in the other one with a backslash.
-/

namespace PipelineLint.Shell

open Text

inductive Expression where
  | nothing
  | one (set : CharSet)
  | atStart
  | atEnd
  | both (first second : Expression)
  | either (first second : Expression)
  /-- An expression at least some number of times, and at most some number of times if there is a limit. -/
  | repeated (least : Nat) (most : Option Nat) (body : Expression)
  | group (number : Nat) (body : Expression)
  | again (number : Nat)
  deriving DecidableEq, Repr, Inhabited

namespace Expression

structure Reached where
  rest : List Char
  /-- Nothing of the line stands before the rest. -/
  isStart : Bool := false
  groups : List (Nat × List Char) := []
  deriving DecidableEq, Repr, Inhabited

/-- The first of those that have come equally far. -/
def distinct (found : List Reached) : List Reached :=
  (found.foldl (fun (seen, kept) (r : Reached) =>
    if Nat.testBit seen r.rest.length then (seen, kept)
    else (seen ||| (1 <<< r.rest.length), r :: kept)) ((0 : Nat), ([] : List Reached))).2.reverse

/-- The ends of repetitions of a step, more repetitions first. A step that uses up nothing counts only as long as
repetitions are missing. -/
def iterate (step : Reached → List Reached) : Nat → Nat → Option Nat → Reached → List Reached
  | 0, least, _, r => if least = 0 then [r] else []
  | fuel + 1, least, most, r =>
    let next := if most == some 0 then []
      else (step r).filter fun s => s.rest.length < r.rest.length || 0 < least
    distinct (next.flatMap (iterate step fuel (least - 1) (most.map (· - 1))) ++
      if least = 0 then [r] else [])

def ends : Expression → Reached → List Reached
  | nothing, r => [r]
  | one set, r => match r.rest with
    | [] => []
    | c :: cs => if set.contains c then [{ r with rest := cs, isStart := false }] else []
  | atStart, r => if r.isStart then [r] else []
  | atEnd, r => if r.rest.isEmpty then [r] else []
  | both first second, r => distinct ((first.ends r).flatMap second.ends)
  | either first second, r => distinct (first.ends r ++ second.ends r)
  | repeated least most body, r => iterate body.ends (r.rest.length + least + 1) least most r
  | group number body, r => (body.ends r).map fun s =>
      { s with groups := (number, r.rest.take (r.rest.length - s.rest.length)) :: s.groups }
  | again number, r => match r.groups.find? (·.1 == number) with
    | none => []
    | some (_, text) => ((dropPrefix? text r.rest).map fun rest => { r with rest, isStart := false }).toList

def matchHere? (e : Expression) (isStart : Bool) (cs : List Char) : Option Reached :=
  (e.ends { rest := cs, isStart }).foldl (fun best r => match best with
    | some b => if r.rest.length < b.rest.length then some r else best
    | none => some r) none

structure Match where
  before : List Char
  found : List Char
  rest : List Char
  groups : List (Nat × List Char)
  deriving DecidableEq, Repr, Inhabited

def find? (e : Expression) (isStart : Bool) : List Char → Option Match
  | [] => (e.matchHere? isStart []).map fun r => ⟨[], [], r.rest, r.groups⟩
  | c :: cs => match e.matchHere? isStart (c :: cs) with
    | some r => some ⟨[], (c :: cs).take ((c :: cs).length - r.rest.length), r.rest, r.groups⟩
    | none => (find? e false cs).map fun m => { m with before := c :: m.before }

def char (c : Char) : Expression := one { ranges := [(c, c)] }

def fixed (cs : List Char) : Expression := cs.foldr (fun c e => both (char c) e) nothing

def whole (e : Expression) : Expression := both atStart (both e atEnd)

def ignoringCase : Expression → Expression
  | one set =>
    let cases (range : Char × Char) : List (Char × Char) :=
      [range, (range.1.toUpper, range.2.toUpper), (range.1.toLower, range.2.toLower)]
    one { set with ranges := set.ranges.flatMap cases }
  | both first second => both (ignoringCase first) (ignoringCase second)
  | either first second => either (ignoringCase first) (ignoringCase second)
  | repeated least most body => repeated least most (ignoringCase body)
  | group number body => group number (ignoringCase body)
  | e => e

inductive Sign where
  | plain (c : Char)
  | escaped (c : Char)
  | any | star | plus | maybe | bar | opened | closed | count | caret | dollar | bracket
  deriving DecidableEq, Repr, Inhabited

namespace Sign

/-- The signs that have a backslash before them in one way of writing and not in the other. -/
def optional? (c : Char) : Option Sign :=
  [('+', plus), ('?', maybe), ('|', bar), ('(', opened), (')', closed), ('\x7b', count)].lookup c

def common? (c : Char) : Option Sign :=
  [('.', any), ('*', star), ('^', caret), ('$', dollar), ('[', bracket)].lookup c

def read? (extended : Bool) (cs : List Char) : Option (Sign × List Char) :=
  match cs with
  | [] => none
  | '\\' :: c :: rest => some (if extended then escaped c else (optional? c).getD (escaped c), rest)
  | c :: rest =>
    some (((common? c).or (if extended then optional? c else none)).getD (plain c), rest)

end Sign

/-- What a character after a backslash stands for. -/
def ofEscape (c : Char) : Expression :=
  let word : List (Char × Char) := [('a', 'z'), ('A', 'Z'), ('0', '9'), ('_', '_')]
  let space : List (Char × Char) := [(' ', ' '), ('\t', '\r')]
  match c with
  | 'w' => one { ranges := word }
  | 'W' => one { ranges := word, inverted := true }
  | 's' => one { ranges := space }
  | 'S' => one { ranges := space, inverted := true }
  | 'n' => char '\n'
  | 't' => char '\t'
  | c => if '1' ≤ c && c ≤ '9' then again (c.toNat - '0'.toNat) else char c

/-- Reads the limits of a repetition up to the closing brace. -/
def limits? (cs : List Char) : Option (Nat × Option Nat × List Char) :=
  let low := cs.takeWhile Char.isDigit
  let closed? (rest : List Char) : Option (List Char) := match rest with
    | '\x7d' :: rest => some rest
    | '\\' :: '\x7d' :: rest => some rest
    | _ => none
  match cs.drop low.length with
  | ',' :: rest =>
    let high := rest.takeWhile Char.isDigit
    (closed? (rest.drop high.length)).map fun rest => (ofDigits low, Text.digits? high, rest)
  | rest => (closed? rest).map fun rest => (ofDigits low, some (ofDigits low), rest)

def withRepetitions (extended : Bool) (e : Expression) : Nat → List Char → Expression × List Char
  | 0, cs => (e, cs)
  | fuel + 1, cs => match Sign.read? extended cs with
    | some (.star, rest) => withRepetitions extended (repeated 0 none e) fuel rest
    | some (.plus, rest) => withRepetitions extended (repeated 1 none e) fuel rest
    | some (.maybe, rest) => withRepetitions extended (repeated 0 (some 1) e) fuel rest
    | some (.count, rest) => match limits? rest with
      | some (least, most, rest) => withRepetitions extended (repeated least most e) fuel rest
      | none => (e, cs)
    | _ => (e, cs)

mutual
/-- Reads alternatives, after which `count` groups have been read. -/
def alternatives (extended inside : Bool) : Nat → Nat → List Char → Expression × Nat × List Char
  | 0, count, cs => (nothing, count, cs)
  | fuel + 1, count, cs =>
    let (first, count, rest) := branch extended inside true nothing fuel count cs
    match Sign.read? extended rest with
    | some (.bar, rest) =>
      let (second, count, rest) := alternatives extended inside fuel count rest
      (either first second, count, rest)
    | _ => (first, count, rest)
termination_by structural fuel => fuel
def branch (extended inside isFirst : Bool) (before : Expression) :
    Nat → Nat → List Char → Expression × Nat × List Char
  | 0, count, cs => (before, count, cs)
  | fuel + 1, count, cs =>
    let further (e : Expression) (count : Nat) (rest : List Char) : Expression × Nat × List Char :=
      let (e, rest) := withRepetitions extended e (rest.length + 1) rest
      branch extended inside false (both before e) fuel count rest
    let isLast (rest : List Char) : Bool := match Sign.read? extended rest with
      | none => true
      | some (sign, _) => sign == .bar || (inside && sign == .closed)
    match cs, Sign.read? extended cs with
    | _, none => (before, count, [])
    | _, some (.bar, _) => (before, count, cs)
    | c :: _, some (.closed, rest) => if inside then (before, count, cs) else further (char c) count rest
    | _, some (.opened, rest) =>
      let number := count + 1
      let (body, count, rest) := alternatives extended true fuel number rest
      let rest := match Sign.read? extended rest with
        | some (.closed, rest) => rest
        | _ => rest
      further (group number body) count rest
    | _, some (.caret, rest) =>
      if isFirst || extended then branch extended inside true (both before atStart) fuel count rest
      else further (char '^') count rest
    | _, some (.dollar, rest) =>
      if extended || isLast rest then branch extended inside false (both before atEnd) fuel count rest
      else further (char '$') count rest
    | _, some (.any, rest) => further (one .all) count rest
    | _, some (.bracket, rest) => match CharSet.read? rest with
      | some (set, rest) => further (one set) count rest
      | none => further (char '[') count rest
    | _, some (.plain c, rest) => further (char c) count rest
    | _, some (.escaped c, rest) => further (ofEscape c) count rest
    | c :: _, some (_, rest) => further (char c) count rest
    | [], some (_, rest) => (before, count, rest)
termination_by structural fuel => fuel
end

def read (extended : Bool) (cs : List Char) : Expression :=
  (alternatives extended false (2 * cs.length + 2) 0 cs).1

end Expression

end PipelineLint.Shell
