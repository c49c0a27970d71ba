import PipelineLint.Concrete.Shell.Word

/-! # Commands of shell scripts

A script is a sequence of commands. `Command.next?` reads the commands on a line, and as many lines as they
need; a script is read and run line by line.
-/

namespace PipelineLint.Shell

structure Redirection where
  stream : Nat
  /-- The operator; two angles mean that the target is a text. -/
  mark : String
  target : Word
  deriving Repr, Inhabited

inductive Command where
  | simple (assignments : List (String × Word)) (words : List Word)
  | redirected (command : Command) (redirections : List Redirection)
  | pipeline (stages : List Command)
  | inverted (command : Command)
  | both (first second : Command)
  | either (first second : Command)
  | sequence (commands : List Command)
  /-- A command that cannot change the state of the script around it. -/
  | subshell (command : Command)
  /-- Conditions with what runs where they hold, and what runs if none does. -/
  | branch (arms : List (Command × Command)) (otherwise : Command)
  | loop (success : Bool) (condition body : Command)
  | each (name : String) (words : Option (List Word)) (body : Command)
  /-- A command that runs if a word matches one of some patterns. -/
  | choice (word : Word) (arms : List (List Word × Command))
  | define (name : String) (body : Command)
  deriving Repr, Inhabited

namespace Command

def nothing : Command := .sequence []

def reserved : List String :=
  ["if", "then", "elif", "else", "fi", "while", "until", "do", "done", "for", "case", "esac", "\x7b",
   "\x7d", "!"]

def plain? : Token → Option String
  | .word [.text false t] => some (String.ofList t)
  | _ => none

def mark? : Token → Option String
  | .operator mark => some mark
  | t => (plain? t).filter reserved.contains

def skipLines (ts : List Token) : List Token := ts.dropWhile (· == .operator "\n")

def skipSeparators (ts : List Token) : List Token :=
  ts.dropWhile fun t => [Token.operator "\n", .operator ";", .operator "&"].contains t

def expect? (mark : String) (ts : List Token) : Option (List Token) :=
  match ts with
  | t :: rest => if mark? t == some mark then some rest else none
  | [] => none

/-- A name of letters, digits and low lines that does not start with a digit. -/
def isName (cs : List Char) : Bool :=
  cs.all isNameChar && (cs.head?.any fun c => !c.isDigit)

def assignment? : Word → Option (String × Word)
  | .text false t :: pieces =>
    let name := t.takeWhile (· != '=')
    match t.dropWhile (· != '=') with
    | _ :: value =>
      if isName name then
        some (String.ofList name, if value.isEmpty then pieces else .text false value :: pieces)
      else none
    | [] => none
  | _ => none

def redirections? : List Token → Option (List Redirection × List Token)
  | .document stream body :: ts =>
    (redirections? ts).map fun (more, rest) => (⟨stream, "<<", body⟩ :: more, rest)
  | .redirect stream mark :: .word target :: ts =>
    (redirections? ts).map fun (more, rest) => (⟨stream, mark, target⟩ :: more, rest)
  | .redirect _ _ :: _ => none
  | ts => some ([], ts)

def words? (assignments : List (String × Word)) (words : List Word) (found : List Redirection) :
    Nat → List Token → Option (Command × List Token)
  | 0, _ => none
  | fuel + 1, ts =>
    let done : Command :=
      let command := .simple assignments.reverse words.reverse
      if found.isEmpty then command else .redirected command found.reverse
    match ts with
    | .word w :: rest => match if words.isEmpty then assignment? w else none with
      | some assignment => words? (assignment :: assignments) words found fuel rest
      | none => words? assignments (w :: words) found fuel rest
    | .document stream body :: rest => words? assignments words (⟨stream, "<<", body⟩ :: found) fuel rest
    | .redirect stream mark :: .word target :: rest =>
      words? assignments words (⟨stream, mark, target⟩ :: found) fuel rest
    | .redirect _ _ :: _ => none
    | ts =>
      if assignments.isEmpty && words.isEmpty && found.isEmpty then none else some (done, ts)

/-- Reads the patterns of an arm up to the closing parenthesis. -/
def patterns? : List Token → Option (List Word × List Token)
  | .word w :: .operator "|" :: ts => (patterns? ts).map fun (more, rest) => (w :: more, rest)
  | .word w :: .operator ")" :: ts => some ([w], ts)
  | _ => none

def loopWords : List Token → List Word × List Token
  | .word w :: ts => let (more, rest) := loopWords ts; (w :: more, rest)
  | ts => ([], ts)

def bracketed : Token → Word
  | .word w => w
  | .operator mark => [.text false mark.toList]
  | .redirect _ mark => [.text false mark.toList]
  | _ => []

def brackets? (ts : List Token) : Option (List Word × List Token) :=
  let isLast (t : Token) : Bool := plain? t == some "]]"
  match ts.dropWhile (!isLast ·) with
  | last :: rest => some ((ts.takeWhile (!isLast ·) ++ [last]).map bracketed, rest)
  | [] => none

mutual
def one? : Nat → List Token → Option (Command × List Token)
  | 0, _ => none
  | fuel + 1, ts =>
    match ts with
    | [] => none
    | t :: rest => do
      let wrap (read : Option (Command × List Token)) : Option (Command × List Token) := do
        let (command, rest) ← read
        let (found, rest) ← redirections? rest
        pure (if found.isEmpty then command else .redirected command found, rest)
      match mark? t with
      | some "if" => wrap (branch? fuel rest)
      | some "while" => wrap (loop? true fuel rest)
      | some "until" => wrap (loop? false fuel rest)
      | some "for" => wrap (each? fuel rest)
      | some "case" => wrap (choice? fuel rest)
      | some "\x7b" => wrap do
        let (body, rest) ← list? ["\x7d"] fuel rest
        pure (body, ← expect? "\x7d" rest)
      | some "(" => wrap do
        let (body, rest) ← list? [")"] fuel rest
        pure (.subshell body, ← expect? ")" rest)
      | some _ => none
      | none => match plain? t, rest with
        | some name, .operator "(" :: .operator ")" :: rest =>
          let (body, rest) ← one? fuel (skipLines rest)
          pure (.define name body, rest)
        | some "[[", _ => wrap do
          let (words, rest) ← brackets? ts
          pure (.simple [] words, rest)
        | _, _ => words? [] [] [] (ts.length + 1) ts
termination_by structural fuel => fuel
def branch? : Nat → List Token → Option (Command × List Token)
  | 0, _ => none
  | fuel + 1, ts => do
    let (condition, rest) ← list? ["then"] fuel ts
    let (body, rest) ← list? ["elif", "else", "fi"] fuel (← expect? "then" rest)
    match rest with
    | t :: rest => match mark? t with
      | some "fi" => pure (.branch [(condition, body)] nothing, rest)
      | some "else" =>
        let (otherwise, rest) ← list? ["fi"] fuel rest
        pure (.branch [(condition, body)] otherwise, ← expect? "fi" rest)
      | _ =>
        let (otherwise, rest) ← branch? fuel rest
        pure (.branch [(condition, body)] otherwise, rest)
    | [] => none
termination_by structural fuel => fuel
def loop? (success : Bool) : Nat → List Token → Option (Command × List Token)
  | 0, _ => none
  | fuel + 1, ts => do
    let (condition, rest) ← list? ["do"] fuel ts
    let (body, rest) ← list? ["done"] fuel (← expect? "do" rest)
    pure (.loop success condition body, ← expect? "done" rest)
termination_by structural fuel => fuel
/-- Reads the name, the words and the body of a loop over words. -/
def each? : Nat → List Token → Option (Command × List Token)
  | 0, _ => none
  | fuel + 1, ts => do
    match ts with
    | t :: rest =>
      let name ← plain? t
      let rest := skipLines rest
      let (words, rest) := match rest with
        | next :: more =>
          if plain? next == some "in" then
            let (words, rest) := loopWords more
            (some words, rest)
          else (none, rest)
        | [] => (none, rest)
      let (body, rest) ← list? ["done"] fuel (← expect? "do" (skipSeparators rest))
      pure (.each name words body, ← expect? "done" rest)
    | [] => none
termination_by structural fuel => fuel
def choice? : Nat → List Token → Option (Command × List Token)
  | 0, _ => none
  | fuel + 1, ts => do
    match ts with
    | .word w :: rest => match skipLines rest with
      | next :: rest =>
        if plain? next == some "in" then do
          let (arms, rest) ← arms? fuel (skipLines rest)
          pure (.choice w arms, rest)
        else none
      | [] => none
    | _ => none
termination_by structural fuel => fuel
def arms? : Nat → List Token → Option (List (List Word × Command) × List Token)
  | 0, _ => none
  | fuel + 1, ts => do
    match expect? "esac" ts with
    | some rest => pure ([], rest)
    | none =>
      let (patterns, rest) ← patterns? ((expect? "(" ts).getD ts)
      let (body, rest) ← list? [";;", "esac"] fuel rest
      let (more, rest) ← arms? fuel (skipLines ((expect? ";;" rest).getD rest))
      pure ((patterns, body) :: more, rest)
termination_by structural fuel => fuel
/-- Reads commands joined by bars, perhaps after an exclamation mark. -/
def pipeline? : Nat → List Token → Option (Command × List Token)
  | 0, _ => none
  | fuel + 1, ts => do
    match expect? "!" ts with
    | some rest =>
      let (command, rest) ← pipeline? fuel rest
      pure (.inverted command, rest)
    | none =>
      let (first, rest) ← one? fuel ts
      match expect? "|" rest with
      | none => pure (first, rest)
      | some rest =>
        let (more, rest) ← pipeline? fuel (skipLines rest)
        pure (match more with
          | .pipeline stages => .pipeline (first :: stages)
          | stage => .pipeline [first, stage], rest)
termination_by structural fuel => fuel
/-- Reads commands that depend on the success of those before them, after the first. -/
def joined? (first : Command) : Nat → List Token → Option (Command × List Token)
  | 0, _ => none
  | fuel + 1, ts => do
    match expect? "&&" ts, expect? "||" ts with
    | some rest, _ =>
      let (second, rest) ← pipeline? fuel (skipLines rest)
      joined? (.both first second) fuel rest
    | none, some rest =>
      let (second, rest) ← pipeline? fuel (skipLines rest)
      joined? (.either first second) fuel rest
    | none, none => pure (first, ts)
termination_by structural fuel => fuel
def list? (stops : List String) : Nat → List Token → Option (Command × List Token)
  | 0, _ => none
  | fuel + 1, ts =>
    let ts := skipSeparators ts
    match ts with
    | [] => none
    | t :: _ =>
      if (mark? t).any stops.contains then some (nothing, ts)
      else do
        let (first, rest) ← pipeline? fuel ts
        let (first, rest) ← joined? first fuel rest
        let (more, rest) ← list? stops fuel rest
        pure (match more with
          | .sequence commands => .sequence (first :: commands)
          | command => .sequence [first, command], rest)
termination_by structural fuel => fuel
end

/-- The steps that reading a command can take: some for each token. -/
def fuel (ts : List Token) : Nat := 4 * ts.length + 8

def line? : Nat → List Token → Option (List Command × List Token)
  | 0, _ => none
  | steps + 1, ts => do
    let (first, rest) ← pipeline? (fuel ts) ts
    let (first, rest) ← joined? first (fuel ts) rest
    match rest with
    | [] => pure ([first], [])
    | .operator "\n" :: rest => pure ([first], rest)
    | t :: rest =>
      if t == .operator ";" || t == .operator "&" then
        match rest with
        | [] => pure ([first], [])
        | .operator "\n" :: rest => pure ([first], rest)
        | rest =>
          let (more, rest) ← line? steps rest
          pure (first :: more, rest)
      else none

/-- Reads the next commands of a script, if there are any and they are well formed. -/
def next? (ts : List Token) : Option (List Command × List Token) :=
  match skipLines ts with
  | [] => none
  | ts => line? (ts.length + 1) ts

end Command

end PipelineLint.Shell
