import PipelineLint.Files
import PipelineLint.NameMap
import PipelineLint.Concrete.Shell.Command
import PipelineLint.Concrete.Shell.Format

/-! # Processes

A process is a shell script while it runs: its files and streams, its variables and arguments, and how the last
command ended.

A command reads from another text and prints to another place if its streams are redirected.
-/

namespace PipelineLint.Shell

section

open Text

inductive Sink where
  | output
  | nowhere
  /-- A file at a path that leads from the first directory of the process. -/
  | file (path : String)
  deriving DecidableEq, Repr, Inhabited

/-- How a script goes on after a command. -/
inductive Flow where
  | on
  | leaves (loops : Nat)
  /-- Some loops but the last end, and the last begins its next round. -/
  | restarts (loops : Nat)
  | returns
  | ended
  deriving DecidableEq, Repr, Inhabited

inductive Dialect where
  /-- The shell of the standard: printed words have escapes, and nothing beyond the standard is known. -/
  | standard
  | bash
  deriving DecidableEq, Repr, Inhabited

structure Process where
  files : Files
  /-- The directory that paths lead from, if it is not the one that the process was started in. -/
  directory : String := ""
  name : String
  arguments : List String
  input : List Char
  output : List Char := []
  /-- Where printed text and complaints go. -/
  out : Sink := .output
  err : Sink := .nowhere
  dialect : Dialect := .standard
  bindings : NameMap String := ∅
  /-- The variables that programs get to know. -/
  exported : List String := []
  /-- A function runs, or a script that another one has read. -/
  isInner : Bool := false
  /-- The variables of the function that runs, with their values outside of it. -/
  hidden : List (String × Option String) := []
  functions : List (String × Command) := []
  optionAt : Nat := 1
  /-- How the last command ended; zero is success. -/
  status : Nat := 0
  flow : Flow := .on
  atEnd : List Char := []
  /-- The first command that fails ends the script. -/
  stopsOnFailure : Bool := false
  /-- A variable without a value ends the script. -/
  needsValues : Bool := false
  pipesFail : Bool := false
  deriving Inhabited

namespace Process

def finish (p : Process) (status : Nat) : Process := { p with status }

def answer (p : Process) (holds : Bool) : Process := p.finish (if holds then 0 else 1)

def quit (p : Process) (status : Nat) : Process := { p with status, flow := .ended }

def locate (p : Process) (path : String) : String :=
  if path.isEmpty || (Path.ofText path).isAbsolute then path else Path.child p.directory path

def place (p : Process) (path : String) : Except FileError Place := p.files.place (p.locate path)

/-- A text can be put into a file at a located path: the directory is there, and no directory is in its
place. -/
def canWrite (p : Process) (path : String) : Bool :=
  match p.files.place path with
  | .ok (.directory _) => false
  | .ok _ => true
  | .error .notFound =>
    !(Path.ofText path).asksDirectory &&
      match p.files.placeAt? (Path.ofText path).steps.dropLast with
      | some (.directory _) => true
      | _ => false
  | .error _ => false

/-- Makes a file at a located path empty, which is made if it is not there. -/
def clear (p : Process) (path : String) : Process :=
  match p.files.place path with
  | .ok (.file _) => { p with files := p.files.put path "" }
  | .error .notFound => { p with files := p.files.put path "" }
  | _ => p

/-- Puts a text at the end of a file at a located path. -/
def append (p : Process) (path : String) (text : List Char) : Process :=
  match p.files.place path with
  | .ok (.file file) => { p with files := p.files.put path (file.content ++ String.ofList text) }
  | .error .notFound => { p with files := p.files.put path (String.ofList text) }
  | _ => p

def send (p : Process) (sink : Sink) (text : List Char) : Process :=
  match sink with
  | .output => { p with output := p.output ++ text }
  | .nowhere => p
  | .file path => p.append path text

def print (p : Process) (text : List Char) : Process := p.send p.out text

def printLines (p : Process) (lines : List (List Char)) : Process :=
  p.print (lines.flatMap (· ++ ['\n']))

def complain (p : Process) (command problem : String) (status : Nat) : Process :=
  (p.send p.err (command ++ ": " ++ problem ++ "\n").toList).finish status

def takeInput (p : Process) : List Char × Process := (p.input, { p with input := [] })

def content (p : Process) (path : String) : Except FileError (List Char) × Process :=
  if path == "-" || path == "/dev/stdin" then
    let (text, p) := p.takeInput
    (.ok text, p)
  else ((p.files.read (p.locate path)).map String.toList, p)

/-- The contents of files with their paths, or the input if there are none. Files that cannot be read are left
out with a complaint. -/
def contents (p : Process) (command : String) (paths : List String) : List (String × List Char) × Process :=
  let step (found : List (String × List Char) × Process) (path : String) :=
    match found.2.content path with
    | (.ok text, p) => (found.1 ++ [(path, text)], p)
    | (.error e, p) => (found.1, p.complain command (path ++ ": " ++ e.message) 1)
  (if paths.isEmpty then ["-"] else paths).foldl step ([], p.finish 0)

def value? (p : Process) (name : String) : Option String := p.bindings.get? name

def bind (p : Process) (name : String) (value : List Char) : Process :=
  { p with bindings := p.bindings.insert name (String.ofList value) }

def separators (p : Process) : List Char := ((p.value? "IFS").map String.toList).getD [' ', '\t', '\n']

def parameter? (p : Process) (name : String) : Option (List Char) :=
  match name with
  | "#" => some (toString p.arguments.length).toList
  | "?" => some (toString p.status).toList
  | "$" => some ['1']
  | "!" => some []
  | "-" => some []
  | "0" => some p.name.toList
  | "@" => if p.arguments.isEmpty then none else some (" ".intercalate p.arguments).toList
  | "*" => if p.arguments.isEmpty then none else some (" ".intercalate p.arguments).toList
  | _ => match digits? name.toList with
    | some n => (p.arguments[n - 1]?).map String.toList
    | none => (p.value? name).map String.toList

def numberOf (p : Process) (name : String) : Int := integerOf ((p.parameter? name).getD [])

/-- The line that the input starts with, without its end, if it has one; and the rest of the input. -/
def splitLine (cs : List Char) : List Char × Bool × List Char :=
  match cs.dropWhile (· != '\n') with
  | [] => (cs, false, [])
  | _ :: rest => (cs.takeWhile (· != '\n'), true, rest)

/-- A line with its backslashes taken away; each hides the character after it. -/
def withoutBackslashes : List Char → List Char
  | '\\' :: c :: cs => c :: withoutBackslashes cs
  | '\\' :: [] => []
  | c :: cs => c :: withoutBackslashes cs
  | [] => []

/-- Gives the fields of a line to variables; the last one gets the rest of the line. -/
def bindFields (p : Process) (line : List Char) : List String → Process
  | [] => p
  | [name] => p.bind name (trimWhile p.separators.contains line)
  | name :: names =>
    let line := line.dropWhile p.separators.contains
    bindFields (p.bind name (line.takeWhile (!p.separators.contains ·)))
      (line.dropWhile (!p.separators.contains ·)) names

def readLine (p : Process) (raw : Bool) (names : List String) : Process :=
  let (line, ended, rest) := splitLine p.input
  let line := if raw then line else withoutBackslashes line
  ({ p with input := rest }.bindFields line names).answer ended

def echo (p : Process) (words : List String) : Process :=
  let isBash := p.dialect = .bash
  let isOption (word : String) : Bool := match word.toList with
    | '-' :: c :: cs => (c :: cs).all fun c => c == 'n' || c == 'e' || c == 'E'
    | _ => false
  let options := if isBash then words.takeWhile isOption
    else (words.take 1).filter (· == "-n")
  let escapes := !isBash || options.any fun word => word.toList.contains 'e'
  let ends := !options.any fun word => word.toList.contains 'n'
  let text := (" ".intercalate (words.drop options.length)).toList
  let (shown, cut) := if escapes then unescaped isBash text else (text, false)
  (p.print (if ends && !cut then shown ++ ['\n'] else shown)).finish 0

def printf (p : Process) (words : List String) : Process :=
  match if words.head? == some "--" then words.drop 1 else words with
  | [] => p.complain "printf" "no format" 2
  | format :: arguments =>
    let text := formatted (p.dialect = .bash) (arguments.length + 1) format.toList (arguments.map String.toList)
    (p.print text).finish 0

end Process

end

namespace Process

def sink? (p : Process) (path : String) : Option Sink :=
  if path == "/dev/stdout" then some p.out
  else if path == "/dev/stderr" then some p.err
  else if path == "/dev/null" then some .nowhere
  else if p.canWrite (p.locate path) then some (.file (p.locate path))
  else none

def sendTo (p : Process) (stream : Nat) (sink : Sink) : Process :=
  match stream with
  | 1 => { p with out := sink }
  | 2 => { p with err := sink }
  | _ => p

def redirectTo? (p : Process) (stream : Nat) (mark target : String) : Option Process :=
  let opened (clears : Bool) : Option (Process × Sink) := (p.sink? target).map fun sink => match sink with
    | .file path => (if clears then p.clear path else p.append path [], sink)
    | sink => (p, sink)
  match mark with
  | "<" | "<>" => match p.content target with
    | (.ok text, _) => some { p with input := text }
    | (.error _, _) => none
  | "<<<" => some { p with input := target.toList ++ ['\n'] }
  | "<&" => some (if target == "-" then { p with input := [] } else p)
  | ">&" =>
    if target == "1" then some (p.sendTo stream p.out)
    else if target == "2" then some (p.sendTo stream p.err)
    else if target == "-" then some (p.sendTo stream .nowhere)
    else if p.dialect = .bash then (opened true).map fun (p, sink) => { p with out := sink, err := sink }
    else none
  | "&>" => (opened true).map fun (p, sink) => { p with out := sink, err := sink }
  | "&>>" => (opened false).map fun (p, sink) => { p with out := sink, err := sink }
  | ">>" => (opened false).map fun (p, sink) => p.sendTo stream sink
  | _ => (opened true).map fun (p, sink) => p.sendTo stream sink

def restored (p after : Process) (redirections : List Redirection) : Process :=
  let readsElsewhere := redirections.any fun r => r.mark.toList.head? == some '<'
  { after with out := p.out, err := p.err, input := if readsElsewhere then p.input else after.input }

end Process

end PipelineLint.Shell
