import PipelineLint.Concrete.Shell.Expression
import PipelineLint.Concrete.Shell.Options
import PipelineLint.Concrete.Shell.Process

/-! # Commands on files

The programs that make, copy, remove and find files, and take paths apart.

The comparisons of texts, numbers and files that scripts decide by. Between double brackets the right side of a
comparison is a pattern.
-/

namespace PipelineLint.Shell

namespace Process

open Text

def programDirectories : List String := ["/bin/", "/usr/bin/"]

def programName? (path : String) : Option String :=
  programDirectories.findSome? fun directory =>
    (dropPrefix? directory.toList path.toList).map String.ofList

def programs : List String :=
  ["sh", "dash", "bash", "env", "echo", "printf", "test", "[", "true", "false", "cat", "tee", "wc", "grep",
   "egrep", "fgrep", "head", "tail", "tr", "cut", "sort", "uniq", "sed", "seq", "basename", "dirname", "touch",
   "rm", "cp", "mv", "mkdir", "rmdir", "chmod", "sleep", "sync", "expr", "mktemp", "which", "tac", "rev", "nl",
   "paste", "ls", "xargs"]

def isProgram (path : String) : Bool := (programName? path).any programs.contains

def fileTest (p : Process) (condition path : String) : Bool :=
  match condition with
  | "-f" => p.files.hasFile (p.locate path)
  | "-d" => p.files.hasDirectory (p.locate path)
  | "-s" => match p.place path with
    | .ok (.file file) => !file.content.isEmpty
    | .ok (.directory _) => true
    | _ => false
  | "-x" => match p.place path with
    | .ok (.file file) => file.isExecutable || isProgram path
    | .ok (.directory _) => true
    | _ => isProgram path
  | "-c" => match p.place path with
    | .ok .void => true
    | _ => false
  | _ => ["-e", "-r", "-w"].contains condition && ((p.place path).isOk || isProgram path)

def test? (p : Process) : Nat → List String → Option Bool
  | 0, _ => none
  | fuel + 1, words =>
    let compare (a b : String) (f : Int → Int → Bool) : Option Bool := do
      pure (f (← signed? 64 a.toList) (← signed? 64 b.toList))
    match words with
    | [] => some false
    | [a] => some (!a.isEmpty)
    | ["!", a] => some a.isEmpty
    | ["-n", a] => some (!a.isEmpty)
    | ["-z", a] => some a.isEmpty
    | ["-t", _] => some false
    | [condition, path] =>
      if ["-f", "-d", "-s", "-x", "-c", "-e", "-r", "-w", "-L", "-h"].contains condition then
        some (p.fileTest condition path)
      else none
    | [a, "=", b] => some (a == b)
    | [a, "==", b] => if p.dialect = .bash then some (a == b) else none
    | [a, "!=", b] => some (a != b)
    | [a, "-eq", b] => compare a b (· == ·)
    | [a, "-ne", b] => compare a b (· != ·)
    | [a, "-lt", b] => compare a b (· < ·)
    | [a, "-le", b] => compare a b (· ≤ ·)
    | [a, "-gt", b] => compare a b (· > ·)
    | [a, "-ge", b] => compare a b (· ≥ ·)
    | words =>
      let split (mark : String) : Option (List String × List String) :=
        if words.contains mark then
          some (words.takeWhile (· != mark), (words.dropWhile (· != mark)).drop 1)
        else none
      match split "-o", split "-a", words with
      | some (a, b), _, _ => do pure ((← p.test? fuel a) || (← p.test? fuel b))
      | none, some (a, b), _ => do pure ((← p.test? fuel a) && (← p.test? fuel b))
      | none, none, "!" :: rest => (p.test? fuel rest).map (!·)
      | none, none, "(" :: rest => if rest.getLast? == some ")" then p.test? fuel rest.dropLast else none
      | none, none, _ => none

def test (p : Process) (words : List String) : Process :=
  match p.test? (words.length + 1) words with
  | some holds => p.answer holds
  | none => p.complain "test" "unexpected operator" 2

/-- The outcome of words between double brackets; the right side of a comparison is a pattern. -/
def bracketTest? (p : Process) : Nat → List (List Glyph) → Option Bool
  | 0, _ => none
  | fuel + 1, words =>
    let texts := words.map fun gs => String.ofList (gs.map (·.1))
    let split (mark : String) : List (List Glyph) × List (List Glyph) :=
      let first := texts.takeWhile (· != mark)
      (words.take first.length, words.drop (first.length + 1))
    if texts.contains "||" then do
      let (a, b) := split "||"
      if ← p.bracketTest? fuel a then pure true else p.bracketTest? fuel b
    else if texts.contains "&&" then do
      let (a, b) := split "&&"
      if ← p.bracketTest? fuel a then p.bracketTest? fuel b else pure false
    else match texts, words with
      | "!" :: _, _ :: rest => (p.bracketTest? fuel rest).map (!·)
      | [a, mark, b], [_, _, gs] =>
        if mark == "==" || mark == "=" then some (matchesAll (pattern gs) a.toList)
        else if mark == "!=" then some (!matchesAll (pattern gs) a.toList)
        else if mark == "=~" then some ((Expression.read true b.toList).find? true a.toList).isSome
        else if mark == "<" then some (a < b)
        else if mark == ">" then some (b < a)
        else p.test? 8 texts
      | _, _ => p.test? 8 texts

end Process

namespace Utility

open Text Process

def basename (p : Process) : List String → Process
  | [] => p.complain "basename" "missing operand" 1
  | path :: ending =>
    let name := ((splitAtChar '/' path.toList).filter (!·.isEmpty)).getLastD ['/']
    let last := (ending.headD "").toList
    let cut := if endsWith name last && name != last then name.take (name.length - last.length) else name
    (p.printLines [cut]).finish 0

def dirname (p : Process) : List String → Process
  | [] => p.complain "dirname" "missing operand" 1
  | path :: _ =>
    let names := splitAtChar '/' path.toList
    let above := join ['/'] names.dropLast
    let shown := if names.length < 2 then ['.'] else if above.isEmpty then ['/'] else above
    (p.printLines [shown]).finish 0

def touch (p : Process) (words : List String) : Process :=
  (words.foldl (fun p path => p.append (p.locate path) []) p).finish 0

def rm (p : Process) (words : List String) : Process :=
  let (found, paths) := options [] words
  let missing := paths.any fun path => !(p.place path).isOk
  let gone := (paths.filter fun path => has found 'r' || !p.files.hasDirectory (p.locate path)).map fun path =>
    (Path.ofText (p.locate path)).steps
  let isKept (names : List String) : Bool := !gone.any fun start => start.isPrefixOf names
  let files : Files :=
    { entries := p.files.entries.filter fun entry => isKept entry.1, folders := p.files.folders.filter isKept }
  { p with files }.answer (has found 'f' || !missing)

def mkdir (p : Process) (words : List String) : Process :=
  let (found, paths) := options ['m'] words
  let names := paths.map fun path => (Path.ofText (p.locate path)).steps
  let there := paths.any fun path => (p.place path).isOk
  let folders := p.files.folders ++ names
  { p with files := { p.files with folders } }.answer (has found 'p' || !there)

/-- Makes an empty file with a new name. -/
def mktemp (p : Process) (words : List String) : Process :=
  let (found, _) := options [] words
  let path := "/tmp/tmp." ++ toString (p.files.entries.length + p.files.folders.length)
  let made := if has found 'd' then
      { p with files := { p.files with folders := p.files.folders ++ [(Path.ofText path).steps] } }
    else p.clear path
  (made.printLines [path.toList]).finish 0

def copy (p : Process) (moves : Bool) (words : List String) : Process :=
  match (options [] words).2 with
  | [source, target] => match p.place source with
    | .ok (.file file) =>
      let target := if p.files.hasDirectory (p.locate target) then
          Path.child target (((splitAtChar '/' source.toList).getLast?.map String.ofList).getD "")
        else target
      let copied := { p with files := p.files.write (p.locate target) file }
      if moves then rm copied [source] else copied.finish 0
    | _ => p.complain "cp" (source ++ ": not a file") 1
  | _ => p.complain "cp" "missing operand" 1

/-- Gives files a mode; it tells whether they are programs. -/
def chmod (p : Process) : List String → Process
  | [] => p.complain "chmod" "missing operand" 1
  | mode :: paths =>
    let isExecutable := (mode.toList.contains 'x' && !mode.toList.contains '-') ||
      mode.toList.any fun c => ['1', '3', '5', '7'].contains c
    let change (p : Process) (path : String) : Process := match p.place path with
      | .ok (.file file) =>
        { p with files := p.files.write (p.locate path) { file with isExecutable } }
      | .ok _ => p
      | .error e => p.complain "chmod" e.message 1
    paths.foldl change (p.finish 0)

def which (p : Process) (words : List String) : Process :=
  let (found, missing) := words.partition programs.contains
  (p.printLines (found.map fun name => ("/usr/bin/" ++ name).toList)).answer missing.isEmpty

/-- Prints the names in the directory, or paths that lead somewhere. -/
def ls (p : Process) (words : List String) : Process :=
  let (_, paths) := options [] words
  let namesIn (path : String) : List String :=
    ((p.files.list (p.locate path)).toOption.getD []).filter fun name => name.toList.head? != some '.'
  let shown := (if paths.isEmpty then ["."] else paths).flatMap fun path =>
    if p.files.hasDirectory (p.locate path) then (namesIn path).mergeSort (· ≤ ·)
    else if (p.place path).isOk then [path] else []
  (p.printLines (shown.map String.toList)).finish (if paths.all fun path => (p.place path).isOk then 0 else 2)

end Utility

end PipelineLint.Shell
