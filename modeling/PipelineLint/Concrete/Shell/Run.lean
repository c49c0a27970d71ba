import PipelineLint.Concrete.Shell.Builtin
import PipelineLint.Concrete.Shell.Expansion
import PipelineLint.Concrete.Shell.Process
import PipelineLint.Text.Lines

/-! # Running scripts

Running a script replaces the pieces of its words, redirects streams and calls commands, one after the other. A
command in parentheses, in a pipeline or in a piece of a word runs in a copy of the process, of which only its
files and streams are kept.

A file that is run as a program starts with a line that names the program to run it with. The rest of that line
is one option of that program.
-/

namespace PipelineLint.Shell

section

open Text

def isGap (c : Char) : Bool := c == ' ' || c == '\t'

def interpreter? (content : List Char) : Option (String × List String) := do
  let rest ← dropPrefix? ['#', '!'] content
  let line := ((rest.takeWhile (· != '\n')).dropWhile isGap).reverse.dropWhile isGap |>.reverse
  let program := line.takeWhile (!isGap ·)
  let option := (line.dropWhile (!isGap ·)).dropWhile isGap
  if program.isEmpty then none
  else pure (String.ofList program, if option.isEmpty then [] else [String.ofList option])

end

open Text

namespace Process

def rejoin (p copy : Process) : Process :=
  { p with files := copy.files, input := copy.input, output := copy.output, status := copy.status }

def copied (p : Process) : Process := { p with atEnd := [] }

/-- A new process with the files and streams of another one. -/
def child (p : Process) (dialect : Dialect) (name : String) (arguments : List String) : Process :=
  { files := p.files, directory := p.directory, name, arguments, input := p.input, output := p.output,
    out := p.out, err := p.err, dialect, exported := p.exported
    bindings := NameMap.ofList (p.bindings.entries.filter fun (name, _) => p.exported.contains name) }

/-- A command that fails may end the script. -/
def judged (p : Process) (checked : Bool) : Process :=
  if checked && p.stopsOnFailure && p.status != 0 && p.flow == .on then p.quit p.status else p

def afterRound (p : Process) : Process × Bool :=
  match p.flow with
  | .on => (p, true)
  | .leaves n => ({ p with flow := if n ≤ 1 then .on else .leaves (n - 1) }, false)
  | .restarts n => if n ≤ 1 then ({ p with flow := .on }, true) else ({ p with flow := .restarts (n - 1) }, false)
  | .returns => (p, false)
  | .ended => (p, false)

/-- The process after a script that is part of another one, which it may have left. -/
def afterReturn (p : Process) : Process := if p.flow == .returns then { p with flow := .on } else p

/-- The process after a function: the arguments and the variables are those from before. -/
def afterFunction (p after : Process) : Process :=
  let restored := after.hidden.foldl (fun p (name, value) => p.rebind name value) after
  { restored with arguments := p.arguments, hidden := p.hidden, isInner := p.isInner }.afterReturn

/-- Repeats a step that tells whether there is another one, at most some number of times. -/
def repeated (step : Process → Process × Bool) : Nat → Process → Process
  | 0, p => p
  | n + 1, p => match step p with
    | (p, true) => repeated step n p
    | (p, false) => p

/-- Runs the commands of tokens, line by line, up to one that cannot be read. -/
def runLines (run : Process → Command → Process) : Nat → Process → List Token → Process
  | 0, p, _ => p
  | steps + 1, p, ts =>
    if p.flow != .on || (Command.skipLines ts).isEmpty then p
    else match Command.next? ts with
      | none => p.quit 2
      | some (commands, rest) => runLines run steps (commands.foldl run p) rest

def hasScript (word : Word) : Bool :=
  word.any fun piece => match piece with
    | .command _ _ => true
    | _ => false

def argumentParts (p : Process) (quoted : Bool) : List Part :=
  match p.arguments.map fun argument => Part.value quoted argument.toList with
  | [] => []
  | first :: more => first ++ more.flatMap (Part.boundary :: ·)

def parameterParts (p : Process) (quoted : Bool) (name : String) (value : List Char) : List Part :=
  match name, quoted with
  | "@", _ => p.argumentParts quoted
  | "*", false => p.argumentParts false
  | "*", true =>
    let separator := match p.value? "IFS" with
      | some text => String.ofList (text.toList.take 1)
      | none => " "
    Part.value true (separator.intercalate p.arguments).toList
  | _, _ => Part.value quoted value

/-- The assignments and the command of words; the first word may hold several ones after an option. -/
def envWords (words : List String) : List String × List String :=
  let words := match words with
    | first :: rest => match dropPrefix? ['-', 'S'] first.toList with
      | some more => ((splitAtChar ' ' more).map String.ofList).filter (· != "") ++ rest
      | none => words
    | [] => []
  let words := words.dropWhile (· == "-i")
  (words.takeWhile fun word => word.toList.contains '=', words.dropWhile fun word => word.toList.contains '=')

def maxRounds : Nat := 100000

mutual
def expand : Nat → Process → Word → List Part × Process
  | 0, p, _ => ([], p.quit 2)
  | fuel + 1, p, word =>
    if word == [.text true [], .parameter true ['@']] && p.arguments.isEmpty then ([], p)
    else word.foldl (fun (parts, p) piece =>
      let (more, p) := replace fuel p piece
      (parts ++ more, p)) ([], p)
termination_by structural fuel => fuel
def replace : Nat → Process → Piece → List Part × Process
  | 0, p, _ => ([], p.quit 2)
  | fuel + 1, p, piece => match piece with
    | .text quoted text => (Part.literal quoted text, p)
    | .command quoted script =>
      let after := run fuel true { p.copied with output := [], out := .output } script
      let text := (after.output.reverse.dropWhile (· == '\n')).reverse
      (Part.value quoted text, { p.rejoin after with output := p.output })
    | .arithmetic quoted formula => match wordOf? true formula with
      | none => ([], p.quit 2)
      | some word =>
        let (parts, p) := expand fuel p word
        match Arithmetic.evaluate? p.numberOf (Part.text parts) with
        | some n => (Part.value quoted (toString n).toList, p)
        | none => ([], p.quit 2)
    | .parameter quoted expression => match Use.read? expression with
      | none => ([], p.quit 2)
      | some (name, use) =>
        let value := p.parameter? name
        let isMissing := value.isNone && !(["@", "*", "!", "-"].contains name)
        match use with
        | .value =>
          if isMissing && p.needsValues then ([], (p.complain name "parameter not set" 2).quit 2)
          else (p.parameterParts quoted name (value.getD []), p)
        | .length =>
          if name == "@" || name == "*" then (Part.value quoted (toString p.arguments.length).toList, p)
          else (Part.value quoted (toString (String.ofList (value.getD [])).utf8ByteSize).toList, p)
        | .word sign orEmpty text =>
          let isThere := value.isSome && !(orEmpty && value == some [])
          if isThere && sign != '+' then (p.parameterParts quoted name (value.getD []), p)
          else if !isThere && sign == '+' then (Part.literal quoted [], p)
          else match wordOf? quoted text with
            | none => ([], p.quit 2)
            | some word =>
              let (parts, p) := expand fuel p word
              let parts := if quoted then parts else parts.map Part.loosen
              if sign == '?' then ([], (p.complain name (String.ofList (Part.text parts)) 2).quit 2)
              else if sign == '=' then (Part.value quoted (Part.text parts), p.bind name (Part.text parts))
              else (parts, p)
        | .cut atEnd longest text => match wordOf? false text with
          | none => ([], p.quit 2)
          | some word =>
            let (parts, p) := expand fuel p word
            (Part.value quoted (Use.trim atEnd longest (pattern (Part.glyphs parts)) (value.getD [])), p)
termination_by structural fuel => fuel
/-- Redirects streams for a command, and tells whether all targets are there. -/
def redirect : Nat → Process → List Redirection → Process × Bool
  | 0, p, _ => (p.quit 2, false)
  | fuel + 1, p, redirections =>
    redirections.foldl (fun (p, ready) r =>
      if !ready then (p, false)
      else
        let (parts, p) := expand fuel p r.target
        if r.mark == "<<" then ({ p with input := Part.text parts }, true)
        else match p.redirectTo? r.stream r.mark (String.ofList (Part.text parts)) with
          | some p => (p, true)
          | none => (p.complain "redirection" "cannot open" (if p.dialect = .bash then 1 else 2), false)) (p, true)
termination_by structural fuel => fuel
def assign : Nat → Process → List (String × Word) → Process
  | 0, p, _ => p.quit 2
  | fuel + 1, p, assignments =>
    assignments.foldl (fun p (name, word) =>
      let (parts, p) := expand fuel p word
      p.bind name (Part.text parts)) p
termination_by structural fuel => fuel
def simple : Nat → Bool → Process → List (String × Word) → List Word → List Redirection → Process
  | 0, _, p, _, _, _ => p.quit 2
  | fuel + 1, checked, p, assignments, words, redirections =>
    let isBracket := p.dialect = .bash && words.head? == some [.text false ['[', '[']]
    let (fields, p) := if isBracket then ([], p) else words.foldl (fun (fields, p) word =>
      let (parts, p) := expand fuel p word
      (fields ++ p.fields parts, p)) ([], p)
    if p.flow != .on then p
    else if isBracket then
      let (found, p) := ((words.drop 1).dropLast).foldl (fun (found, p) word =>
        let (parts, p) := expand fuel p word
        (found ++ [Part.glyphs parts], p)) ([], p)
      match p.bracketTest? (found.length + 2) found with
      | some holds => p.answer holds
      | none => p.finish 2
    else match fields with
      | [] =>
        let (_, ready) := redirect fuel p redirections
        let made := (redirect fuel p redirections).1.files
        if !ready then p.finish (if p.dialect = .bash then 1 else 2)
        else
          let after := assign fuel { p with files := made } assignments
          if assignments.any (fun (_, word) => hasScript word) || words.any hasScript then after
          else if after.flow == .on then after.finish 0 else after
      | name :: arguments =>
        let isSpecial := specials.contains name
        let (q, ready) := redirect fuel p redirections
        if !ready then
          if isSpecial && p.dialect = .standard then (restored p q redirections).quit 2
          else restored p q redirections
        else
          let q := assign fuel q assignments
          let q := if isSpecial then q else { q with exported := assignments.map (·.1) ++ q.exported }
          let after := if q.flow == .on then call fuel checked q name arguments else q
          let after := if isSpecial || assignments.isEmpty then after
            else
              let rebound := assignments.foldl (fun after (name, _) => after.rebind name (p.value? name)) after
              { rebound with exported := p.exported }
          if name == "exec" && arguments.isEmpty then after else restored p after redirections
termination_by structural fuel => fuel
def call : Nat → Bool → Process → String → List String → Process
  | 0, _, p, _, _ => p.quit 2
  | fuel + 1, checked, p, name, words =>
    let isBash := p.dialect = .bash
    if name == "eval" then run fuel checked (p.finish 0) (" ".intercalate words).toList
    else if name == "exec" then match words with
      | [] => p.finish 0
      | name :: words =>
        let after := start fuel p name words
        after.quit after.status
    else if name == "." || (isBash && name == "source") then match words with
      | [] => p.quit 2
      | path :: _ =>
        if !path.toList.contains '/' && !isBash then (p.complain "." (path ++ ": not found") 2).quit 2
        else match p.files.read (p.locate path) with
          | .ok text =>
            let after := run fuel checked { p with isInner := true, status := 0 } text.toList
            { after with isInner := p.isInner }.afterReturn
          | .error e =>
            let failed := p.complain "." (path ++ ": " ++ e.message) 2
            if isBash then failed.finish 1 else failed.quit 2
    else if name == "command" || (isBash && name == "builtin") then
      match words.dropWhile (· == "-p") with
      | [] => p.finish 0
      | word :: words =>
        if word == "-v" || word == "-V" then p.tellFound words
        else match p.builtin? word words with
          | some after => after
          | none => if ["eval", "exec", ".", "source"].contains word then call fuel checked p word words
            else start fuel p word words
    else match if specials.contains name then none else p.functions.find? (·.1 == name) with
      | some (_, body) =>
        p.afterFunction (exec fuel checked { p with arguments := words, hidden := [], isInner := true } body)
      | none => match p.builtin? name words with
        | some after => after
        | none => start fuel p name words
termination_by structural fuel => fuel
def start : Nat → Process → String → List String → Process
  | 0, p, _, _ => p.quit 2
  | fuel + 1, p, name, words =>
    match if programs.contains name then some name else (programName? name).filter programs.contains with
    | some "sh" => shell fuel p .standard words
    | some "dash" => shell fuel p .standard words
    | some "bash" => shell fuel p .bash words
    | some "xargs" =>
      let items := (splitOn (fun c => Part.isBlank c) p.input).filter (!·.isEmpty)
      let called := if words.isEmpty then ["echo"] else words
      p.rejoin (start fuel { p with input := [] } (called.headD "echo") (called.drop 1 ++ items.map String.ofList))
    | some "env" => match envWords words with
      | (_, []) => p.finish 0
      | (given, name :: rest) =>
        p.rejoin (start fuel (p.exportAll given) name rest)
    | some program => Utility.run p program words
    | none =>
      if !name.toList.contains '/' then p.complain name "not found" 127
      else match p.place name with
        | .error e => p.complain name e.message 127
        | .ok (.file file) =>
          if !file.isExecutable then p.complain name "Permission denied" 126
          else match interpreter? file.content.toList with
            | none =>
              let copy := p.child p.dialect name words
              p.rejoin (finished fuel (run fuel true copy file.content.toList))
            | some (program, options) => start fuel p program (options ++ name :: words)
        | .ok _ => p.complain name "Permission denied" 126
termination_by structural fuel => fuel
/-- Starts a shell: it runs the script of its options, of a file, or of its input. -/
def shell : Nat → Process → Dialect → List String → Process
  | 0, p, _, _ => p.quit 2
  | fuel + 1, p, dialect, words =>
    let isOption (word : String) : Bool := match word.toList with
      | sign :: _ :: _ => sign == '-' || sign == '+'
      | _ => false
    let options := (words.takeWhile fun word => isOption word && word != "--").filter
      fun word => !(["--norc", "--noprofile", "--posix"].contains word)
    let rest := words.dropWhile fun word => isOption word && word != "--"
    let rest := if rest.head? == some "--" then rest.drop 1 else rest
    let letters := options.flatMap fun word => word.toList.drop 1
    let (named, rest) := if letters.contains 'o' then (rest.take 1, rest.drop 1) else ([], rest)
    let begun (p : Process) : Process :=
      let on := letters.foldl (fun p c => p.switch true c) p
      named.foldl (fun p name => (p.switchNamed? true name).getD p) on
    let runs (copy : Process) (script : List Char) : Process :=
      p.rejoin (finished fuel (run fuel true (begun copy) script))
    if letters.any fun c => c != 'c' && c != 'l' && c != 'o' && c != 'r' && !optionLetters.contains c then
      p.complain "sh" "illegal option" 2
    else if letters.contains 'c' then match rest with
      | [] => p.complain "sh" "-c requires an argument" 2
      | script :: rest => runs (p.child dialect (rest.headD "sh") (rest.drop 1)) script.toList
    else if letters.contains 's' || rest.isEmpty then
      runs { p.child dialect (if dialect = .bash then "bash" else "sh") rest with input := [] } p.input
    else match rest with
      | [] => p
      | path :: rest => match p.files.read (p.locate path) with
        | .error e => p.complain "sh" (path ++ ": " ++ e.message) 127
        | .ok script => runs (p.child dialect path rest) script.toList
termination_by structural fuel => fuel
def run : Nat → Bool → Process → List Char → Process
  | 0, _, p, _ => p.quit 2
  | fuel + 1, checked, p, script =>
    let tokens := Token.ofScript (p.dialect = .bash) script
    runLines (exec fuel checked) (tokens.length + 1) p tokens
termination_by structural fuel => fuel
def finished : Nat → Process → Process
  | 0, p => p
  | fuel + 1, p =>
    if p.atEnd.isEmpty then p
    else
      let after := run fuel false { p with atEnd := [], flow := .on } p.atEnd
      if after.flow == .ended then after else after.finish p.status
termination_by structural fuel => fuel
/-- Runs a command. A failure ends the script only if it is `checked`. -/
def exec : Nat → Bool → Process → Command → Process
  | 0, _, p, _ => p.quit 2
  | fuel + 1, checked, p, command =>
    if p.flow != .on then p
    else match command with
      | .simple assignments words => (simple fuel checked p assignments words []).judged checked
      | .redirected (.simple assignments words) redirections =>
        (simple fuel checked p assignments words redirections).judged checked
      | .redirected command redirections => match redirect fuel p redirections with
        | (q, true) => restored p (exec fuel checked q command) redirections
        | (q, false) => (restored p q redirections).judged checked
      | .pipeline stages =>
        let before := { p.copied with output := [], out := .output }
        let (after, statuses) := stages.dropLast.foldl (fun (q, statuses) stage =>
            let after := finished fuel (exec fuel true { before with files := q.files, input := q.output } stage)
            let input := if statuses.isEmpty then after.input else q.input
            ({ q with files := after.files, output := after.output, input }, statuses ++ [after.status]))
          ({ p with output := p.input }, [])
        let last := finished fuel (exec fuel true { p.copied with files := after.files, input := after.output }
          (stages.getLastD .nothing))
        let failures := (statuses ++ [last.status]).filter (· != 0)
        let status := if p.pipesFail then failures.getLastD 0 else last.status
        ({ p.rejoin last with input := after.input }.finish status).judged checked
      | .inverted command =>
        let after := exec fuel false p command
        if after.flow == .on then after.answer (after.status != 0) else after
      | .both first second =>
        let after := exec fuel false p first
        if after.status = 0 then exec fuel checked after second else after
      | .either first second =>
        let after := exec fuel false p first
        if after.status = 0 then after else exec fuel checked after second
      | .sequence [] => p.finish 0
      | .sequence commands => commands.foldl (fun p command => exec fuel checked p command) p
      | .subshell command => (p.rejoin (finished fuel (exec fuel checked p.copied command))).judged checked
      | .branch arms otherwise =>
        let (after, done) := arms.foldl (fun (p, done) (condition, body) =>
            if done then (p, true)
            else
              let tested := exec fuel false p condition
              if tested.flow != .on then (tested, true)
              else if tested.status = 0 then (exec fuel checked tested body, true)
              else (tested, false)) (p, false)
        if done then after else exec fuel checked (after.finish 0) otherwise
      | .loop success condition body =>
        repeated (fun p =>
          let tested := exec fuel false p condition
          if tested.flow != .on then tested.afterRound
          else if (tested.status == 0) == success then (exec fuel checked tested body).afterRound
          else (tested.finish p.status, false)) maxRounds (p.finish 0)
      | .each name words body =>
        let (fields, p) := match words with
          | none => (p.arguments, p)
          | some words => words.foldl (fun (fields, p) word =>
              let (parts, p) := expand fuel p word
              (fields ++ p.fields parts, p)) ([], p)
        if p.flow != .on then p
        else (fields.foldl (fun (p, more) (field : String) =>
          if more then (exec fuel checked (p.bind name field.toList) body).afterRound else (p, false))
            (p.finish 0, true)).1
      | .choice word arms =>
        let (parts, p) := expand fuel p word
        let text := Part.text parts
        (arms.foldl (fun (p, done) (patterns, body) =>
          if done || p.flow != .on then (p, true)
          else
            let (holds, p) := patterns.foldl (fun (holds, p) wanted =>
              if holds then (true, p)
              else
                let (parts, p) := expand fuel p wanted
                (matchesAll (pattern (Part.glyphs parts)) text, p)) (false, p)
            if holds then (exec fuel checked p body, true) else (p, false)) (p.finish 0, false)).1
      | .define name body => { p with functions := (name, body) :: p.functions }.finish 0
termination_by structural fuel => fuel
end

end Process

end PipelineLint.Shell
