import PipelineLint.Concrete.Shell.Utility

/-! # Commands of the shell

The commands that change the state of a script or ask for it. Those that run other commands are not among them.
-/

namespace PipelineLint.Shell.Process

open Text

def unbind (p : Process) (name : String) : Process :=
  { p with bindings := p.bindings.erase name, exported := p.exported.filter (· != name) }

def rebind (p : Process) (name : String) (value : Option String) : Process :=
  match value with
  | some text => p.bind name text.toList
  | none => { p with bindings := p.bindings.erase name }

def nameAndValue (word : String) : String × Option (List Char) :=
  match cut? ['='] word.toList with
  | some (name, value) => (String.ofList name, some value)
  | none => (word, none)

/-- Gives variables the values after equals signs. -/
def declare (p : Process) (words : List String) : Process :=
  let step (p : Process) (word : String) : Process := match nameAndValue word with
    | (name, some value) => p.bind name value
    | (_, none) => p
  ((words.filter fun word => word.toList.head? != some '-').foldl step p).finish 0

/-- Lets programs know variables. -/
def exportAll (p : Process) (words : List String) : Process :=
  let names := words.map fun word => (nameAndValue word).1
  { p.declare words with exported := (p.exported ++ names).eraseDups }

/-- Makes variables that last as long as a function runs. -/
def hide (p : Process) (words : List String) : Process :=
  if !p.isInner then
    let failed := p.complain "local" "not in a function" 1
    if p.dialect = .bash then failed else failed.quit 2
  else
  let step (p : Process) (word : String) : Process :=
    let (name, value) := nameAndValue word
    let hidden := { p with hidden := (name, p.value? name) :: p.hidden }
    match value with
    | some text => hidden.bind name text
    | none => hidden
  ((words.filter fun word => word.toList.head? != some '-').foldl step p).finish 0

def unset (p : Process) (words : List String) : Process :=
  match words with
  | "-f" :: names => { p with functions := p.functions.filter fun f => !names.contains f.1 }.finish 0
  | "-v" :: names => (names.foldl unbind p).finish 0
  | names => (names.foldl unbind p).finish 0

def switch (p : Process) (on : Bool) (letter : Char) : Process :=
  match letter with
  | 'e' => { p with stopsOnFailure := on }
  | 'u' => { p with needsValues := on }
  | _ => p

def optionLetters : List Char :=
  ['a', 'b', 'C', 'e', 'f', 'h', 'i', 'k', 'm', 'n', 'p', 's', 't', 'u', 'v', 'x', 'B', 'E', 'H', 'I', 'P', 'T', 'V']

def optionNames : List String :=
  ["xtrace", "noglob", "verbose", "noclobber", "allexport", "monitor", "notify", "ignoreeof", "emacs", "vi"]

def switchNamed? (p : Process) (on : Bool) (name : String) : Option Process :=
  match name with
  | "errexit" => some (p.switch on 'e')
  | "nounset" => some (p.switch on 'u')
  | "pipefail" => if p.dialect = .bash then some { p with pipesFail := on } else none
  | "posix" => if p.dialect = .bash then some p else none
  | _ => if optionNames.contains name then some p else none

/-- Turns options on or off and replaces the arguments. -/
def set (p : Process) : List String → Process
  | [] => p.finish 0
  | [word] => match word.toList with
    | ['-', '-'] => { p with arguments := [] }.finish 0
    | '-' :: letters => flags p true letters
    | '+' :: letters => flags p false letters
    | _ => { p with arguments := [word] }.finish 0
  | word :: next :: rest => match word.toList with
    | ['-', '-'] => { p with arguments := next :: rest }.finish 0
    | sign :: letters =>
      if sign != '-' && sign != '+' then { p with arguments := word :: next :: rest }.finish 0
      else
        let changed := flags p (sign == '-') letters
        if changed.flow != .on then changed
        else if letters.contains 'o' then match changed.switchNamed? (sign == '-') next with
          | some named => set named rest
          | none => (p.complain "set" ("illegal option -o " ++ next) 2).quit 2
        else set changed (next :: rest)
    | [] => { p with arguments := word :: next :: rest }.finish 0
where
  flags (p : Process) (on : Bool) (letters : List Char) : Process :=
    if letters.all fun c => c == 'o' || optionLetters.contains c then
      (letters.foldl (fun p c => p.switch on c) p).finish 0
    else (p.complain "set" "illegal option" 2).quit 2

def shift (p : Process) (words : List String) : Process :=
  let n := ((words.head?.bind fun word => digits? word.toList)).getD 1
  if n ≤ p.arguments.length then { p with arguments := p.arguments.drop n }.finish 0
  else if p.dialect = .bash then p.finish 1
  else (p.complain "shift" "can't shift that many" 2).quit 2

/-- The status that a word gives, or else the status of the last command. -/
def statusOf (p : Process) (words : List String) : Nat :=
  match words with
  | word :: _ => match digits? word.toList with
    | some n => n % 256
    | none => 2
  | [] => p.status

def loopsOf (words : List String) : Nat := ((words.head?.bind fun word => digits? word.toList)).getD 1

/-- Sets the script that runs at the end. -/
def trap (p : Process) (words : List String) : Process :=
  match words with
  | action :: signals =>
    if signals.contains "EXIT" || signals.contains "0" then
      { p with atEnd := if action == "-" then [] else action.toList }.finish 0
    else p.finish 0
  | [] => p.finish 0

/-- Changes the directory that paths lead from. -/
def cd (p : Process) (words : List String) : Process :=
  match words.filter fun word => word != "--" && word != "-P" && word != "-L" with
  | [] => p.finish 0
  | path :: _ =>
    if p.files.hasDirectory (p.locate path) then
      let isHere := (Path.ofText path).names.isEmpty && !(Path.ofText path).isAbsolute
      (if isHere then p else { p with directory := p.locate path }).finish 0
    else p.complain "cd" ("can't cd to " ++ path) 2

/-- Reads the input into variables: a line, or the text up to a sign. -/
def readInto (p : Process) (words : List String) : Process :=
  let (found, names) := Utility.options ['p', 'd', 'n', 't', 'u'] words
  let names := if names.isEmpty then ["REPLY"] else names
  let raw := Utility.has found 'r'
  if names == ["REPLY"] && p.dialect = .standard then p.complain "read" "arg count" 2
  else match Utility.value? found 'd' with
    | none => p.readLine raw names
    | some sign =>
      let isEnd (c : Char) : Bool := sign.toList.head? == some c
      let text := p.input.takeWhile (!isEnd ·)
      let rest := p.input.drop text.length
      ({ p with input := rest.drop 1 }.bindFields (if raw then text else withoutBackslashes text) names).answer
        (!rest.isEmpty)

/-- Goes on to a place of the words that options are read from. -/
def goTo (p : Process) (index letter : Nat) : Process :=
  { p.bind "OPTIND" (toString index).toList with optionAt := letter }

/-- Reads the next option of a list of words into a variable; a colon in `known` follows a letter with a value. -/
def nextOption (p : Process) (known name : String) (words : List String) : Process :=
  let index := ((p.value? "OPTIND").bind fun n => digits? n.toList).getD 1
  let silent := known.toList.head? == some ':'
  let ended (p : Process) : Process := (p.bind name ['?']).finish 1
  match (words[index - 1]?).map String.toList with
  | some ('-' :: c :: cs) =>
    if c == '-' && cs.isEmpty then ended (p.goTo (index + 1) 1)
    else
      let letter := ((c :: cs).drop (p.optionAt - 1)).headD '?'
      let rest := (c :: cs).drop p.optionAt
      let next := if rest.isEmpty then p.goTo (index + 1) 1 else p.goTo index (p.optionAt + 1)
      let refuse (p : Process) (sign : Char) : Process :=
        if silent then ((p.bind name [sign]).bind "OPTARG" [letter]).finish 0
        else (((p.bind name ['?']).unbind "OPTARG").complain "getopts" "illegal option" 0)
      match if letter == ':' then [] else known.toList.dropWhile (· != letter) with
      | [] => refuse next '?'
      | _ :: ':' :: _ =>
        if !rest.isEmpty then (((p.goTo (index + 1) 1).bind name [letter]).bind "OPTARG" rest).finish 0
        else match words[index]? with
          | some value =>
            (((p.goTo (index + 2) 1).bind name [letter]).bind "OPTARG" value.toList).finish 0
          | none => refuse (p.goTo (index + 1) 1) ':'
      | _ => ((next.bind name [letter]).unbind "OPTARG").finish 0
  | _ => ended p

/-- The commands of the shell whose failures end a script, and whose assignments last. -/
def specials : List String :=
  [":", ".", "break", "continue", "eval", "exec", "exit", "export", "readonly", "return", "set", "shift", "times",
   "trap", "unset"]

def regulars : List String :=
  ["true", "false", "echo", "printf", "test", "[", "read", "cd", "pwd", "local", "getopts", "umask", "wait",
   "command", "type", "hash", "ulimit", "kill", "jobs", "alias", "unalias"]

def extras : List String := ["[[", "source", "declare", "typeset", "builtin", "shopt", "let"]

def found? (p : Process) (name : String) : Option String :=
  if p.functions.any (·.1 == name) || specials.contains name || regulars.contains name ||
      (p.dialect = .bash && extras.contains name) then some name
  else if programs.contains name then some ("/usr/bin/" ++ name)
  else if isProgram name then some name
  else if name.toList.contains '/' then match p.place name with
    | .ok (.file file) => if file.isExecutable then some name else none
    | _ => none
  else none

def tellFound (p : Process) (names : List String) : Process :=
  let known := names.filterMap p.found?
  (p.printLines (known.map String.toList)).finish (if known.length = names.length then 0 else 127)

def builtin? (p : Process) (name : String) (words : List String) : Option Process :=
  match name with
  | ":" | "true" => some (p.finish 0)
  | "false" => some (p.finish 1)
  | "echo" => some (p.echo words)
  | "printf" => some (p.printf words)
  | "test" => some (p.test words)
  | "[" => some (Utility.run p "[" words)
  | "read" => some (p.readInto words)
  | "exit" => some (p.quit (p.statusOf words))
  | "return" =>
    if p.dialect = .bash && !p.isInner then some (p.complain "return" "can only return from a function" 1)
    else some { p with status := p.statusOf words, flow := .returns }
  | "break" => some { p with status := 0, flow := .leaves (loopsOf words) }
  | "continue" => some { p with status := 0, flow := .restarts (loopsOf words) }
  | "set" => some (p.set words)
  | "shift" => some (p.shift words)
  | "export" => some (p.exportAll words)
  | "readonly" => some (p.declare words)
  | "unset" => some (p.unset words)
  | "local" => some (p.hide words)
  | "trap" => some (p.trap words)
  | "cd" => some (p.cd words)
  | "pwd" => some ((p.printLines [(if p.directory.isEmpty then "." else p.directory).toList]).finish 0)
  | "getopts" => match words with
    | [known, name] => some (p.nextOption known name p.arguments)
    | known :: name :: words => some (p.nextOption known name words)
    | _ => some (p.complain "getopts" "usage" 2)
  | "type" => some (p.tellFound words)
  | _ =>
    if ["times", "umask", "wait", "hash", "ulimit", "kill", "jobs", "alias", "unalias"].contains name then
      some (p.finish 0)
    else if p.dialect = .bash then match name with
      | "declare" | "typeset" => some (if p.isInner then p.hide words else p.declare words)
      | "shopt" => some (p.finish 0)
      | _ => none
    else none

end PipelineLint.Shell.Process
