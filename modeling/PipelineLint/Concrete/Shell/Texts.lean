import PipelineLint.Concrete.Shell.Expression
import PipelineLint.Concrete.Shell.Options

/-! # Commands on texts

The programs that copy, count, search, cut and order the lines of files, or else of the input.
-/

namespace PipelineLint.Shell.Utility

open Text Process

def cat (p : Process) (words : List String) : Process :=
  let (found, paths) := options [] words
  let (texts, after) := p.contents "cat" paths
  guarded p "cat" "un" found (match texts.flatMap (·.2) with
    | [] => after
    | text =>
      let numbered := (rows text).zipIdx.flatMap fun (line, i) =>
        formatted false 1 "%6d\t%s\n".toList [(toString (i + 1)).toList, line]
      after.print (if has found 'n' then numbered else text))

/-- Writes the input to files and prints it. -/
def tee (p : Process) (words : List String) : Process :=
  let (found, paths) := options [] words
  let (text, p) := p.takeInput
  let cleared := if has found 'a' then p else paths.foldl (fun p path => p.clear (p.locate path)) p
  ((paths.foldl (fun p path => p.append (p.locate path) text) cleared).print text).finish 0

def wordCount (cs : List Char) : Nat :=
  ((splitOn (fun c => c == ' ' || ('\t' ≤ c && c ≤ '\r')) cs).filter (!·.isEmpty)).length

/-- Counts the lines, words and bytes of files. -/
def wc (p : Process) (words : List String) : Process :=
  let (found, paths) := options [] words
  let (texts, after) := p.contents "wc" paths
  let all := found.isEmpty
  let counts (text : List Char) : List Nat :=
    (if all || has found 'l' then [text.count '\n'] else []) ++
      (if all || has found 'w' then [wordCount text] else []) ++
      (if has found 'm' then [text.length] else []) ++
      (if all || has found 'c' then [(String.ofList text).utf8ByteSize] else [])
  let total := texts.flatMap (·.2)
  let rows := texts.map (fun (path, text) => (counts text, if paths.isEmpty then "" else " " ++ path)) ++
    (if paths.length > 1 then [(counts total, " total")] else [])
  let single := (counts []).length = 1 && rows.length = 1
  let width := if single then 1
    else if paths.isEmpty || paths.contains "-" then 7
    else (toString (String.ofList total).utf8ByteSize).length
  let row (numbers : List Nat) : String := " ".intercalate (numbers.map fun n =>
    String.ofList (List.replicate (width - (toString n).length) ' ') ++ toString n)
  guarded p "wc" "lwcm" found
    (after.printLines (rows.map fun (numbers, name) => (row numbers ++ name).toList))

def grep (p : Process) (extended fixed : Bool) (words : List String) : Process :=
  let (found, words) := options ['e', 'm'] words
  match value? found 'e' <|> words.head? with
  | none => p.complain "grep" "no pattern" 2
  | some wanted =>
    let paths := if has found 'e' then words else words.drop 1
    let patterns := splitAtChar '\n' wanted.toList
    let read (cs : List Char) : Expression :=
      if fixed || has found 'F' then Expression.fixed cs
      else Expression.read (extended || has found 'E') cs
    let e := match patterns.map read with
      | [] => Expression.nothing
      | first :: more => more.foldl Expression.either first
    let e := if has found 'i' then e.ignoringCase else e
    let isWordChar (c : Option Char) : Bool := c.any isNameChar
    let hits (line : List Char) : Bool :=
      match (if has found 'x' then e.whole else e).find? true line with
      | some m => !has found 'w' || (!isWordChar m.before.getLast? && !isWordChar m.rest.head?)
      | none => false
    let (texts, after) := p.contents "grep" paths
    let start (path : String) (i : Nat) : List Char :=
      (if paths.length > 1 && !has found 'h' then path.toList ++ [':'] else []) ++
        (if has found 'n' then (toString (i + 1)).toList ++ [':'] else [])
    let limit := ((value? found 'm').bind fun n => digits? n.toList)
    let selected (text : List Char) : List (List Char × Nat) :=
      let all := (rows text).zipIdx.filter fun (line, _) => hits line != has found 'v'
      match limit with
      | some n => all.take n
      | none => all
    let shown (line : List Char) : List Char :=
      if has found 'o' then ((e.find? true line).map (·.found)).getD [] else line
    let any := texts.any fun (_, text) => !(selected text).isEmpty
    let printed : List (List Char) :=
      if has found 'q' then []
      else if has found 'c' then
        texts.map fun (path, text) => start path 0 ++ (toString (selected text).length).toList
      else if has found 'l' then
        (texts.filter fun (_, text) => !(selected text).isEmpty).map fun (path, _) => path.toList
      else texts.flatMap fun (path, text) =>
        (selected text).map fun (line, i) => start path i ++ shown line
    guarded p "grep" "qcvinEFxsowhlem" found ((after.printLines printed).answer any)

/-- Prints the first lines of files. -/
def head (p : Process) (words : List String) : Process :=
  let words := match words with
    | first :: rest => match first.toList with
      | '-' :: cs => if (digits? cs).isSome then "-n" :: String.ofList cs :: rest else words
      | _ => words
    | [] => words
  let (found, paths) := options ['n', 'c'] words
  let (texts, after) := p.contents "head" paths
  let text := texts.flatMap (·.2)
  match value? found 'c' with
  | some n => guarded p "head" "nc" found (after.print (text.take (ofDigits n.toList)))
  | none =>
    let n := ((value? found 'n').bind fun n => digits? n.toList).getD 10
    let first := (splitOn (· == '\n') text).take n
    let complete := n ≤ text.count '\n'
    guarded p "head" "nc" found
      (after.print (join ['\n'] first ++ if complete && 0 < n then ['\n'] else []))

/-- Prints the last lines of files. -/
def tail (p : Process) (words : List String) : Process :=
  let words := match words with
    | first :: rest => match first.toList with
      | '-' :: cs => if (digits? cs).isSome then "-n" :: String.ofList cs :: rest else words
      | _ => words
    | [] => words
  let (found, paths) := options ['n', 'c'] words
  let (texts, after) := p.contents "tail" paths
  let text := texts.flatMap (·.2)
  let ended := text.getLast? == some '\n'
  let parts := splitOn (· == '\n') (if ended then text.dropLast else text)
  let kept := match ((value? found 'n').getD "10").toList with
    | '+' :: cs => parts.drop (ofDigits cs - 1)
    | cs => parts.drop (parts.length - ofDigits cs)
  guarded p "tail" "nc" found (after.print (if text.isEmpty || kept.isEmpty then []
    else join ['\n'] kept ++ if ended then ['\n'] else []))

def charsOf : Nat → List Char → List Char
  | 0, _ => []
  | _, [] => []
  | fuel + 1, c :: cs =>
    match CharSet.class? (c :: cs) with
    | some (ranges, rest) => (ranges.flatMap fun (a, b) => charRange a b) ++ charsOf fuel rest
    | none =>
      let (first, rest) := if c == '\\' then escape false cs else ([c], cs)
      match first, rest with
      | [a], '-' :: b :: rest => if a ≤ b then charRange a b ++ charsOf fuel rest
        else a :: charsOf fuel ('-' :: b :: rest)
      | first, rest => first ++ charsOf fuel rest
where
  charRange (a b : Char) : List Char :=
    (List.range (b.toNat + 1 - a.toNat)).map fun i => Char.ofNat (a.toNat + i)

/-- A text in which a repeated character of a set stands once. -/
def squeezed (set : Char → Bool) : List Char → List Char
  | c :: d :: cs => if c == d && set c then squeezed set (d :: cs) else c :: squeezed set (d :: cs)
  | cs => cs

/-- Replaces, removes or joins characters of the input. -/
def tr (p : Process) (words : List String) : Process :=
  let (found, sets) := options [] words
  let chars (s : String) : List Char := charsOf (s.length + 1) s.toList
  let wanted := chars (sets.headD "")
  let isWanted (c : Char) : Bool := wanted.contains c != (has found 'c' || has found 'C')
  let (text, after) := p.takeInput
  let others := chars ((sets.drop 1).headD "")
  let replaced := text.map fun c =>
    if !isWanted c then c
    else if has found 'c' || has found 'C' then others.getLastD c
    else match wanted.idxOf? c with
      | some i => (others[i]?).getD (others.getLastD c)
      | none => c
  let changed := if has found 'd' then text.filter (!isWanted ·)
    else if sets.length < 2 then text else replaced
  let final := if has found 's' then
      squeezed (fun c => if sets.length < 2 then isWanted c else others.contains c) changed
    else changed
  guarded p "tr" "dscC" found ((after.print final).finish 0)

def cut (p : Process) (words : List String) : Process :=
  let (found, paths) := options ['d', 'f', 'c'] words
  let (texts, after) := p.contents "cut" paths
  let ranges := (splitAtChar ',' ((value? found 'f' <|> value? found 'c').getD "").toList).map fun r =>
    let low := r.takeWhile (· != '-')
    let high := (r.dropWhile (· != '-')).drop 1
    (if low.isEmpty then 1 else ofDigits low,
      if !r.contains '-' then some (ofDigits low) else if high.isEmpty then none else some (ofDigits high))
  let keeps (i : Nat) : Bool := ranges.any fun (low, high) => low ≤ i + 1 && high.all (i + 1 ≤ ·)
  let separator := ((value? found 'd').bind (·.toList.head?)).getD '\t'
  let shown (line : List Char) : List Char :=
    if has found 'c' then (line.zipIdx.filter fun (_, i) => keeps i).map (·.1)
    else if !line.contains separator then line
    else join [separator] (((splitAtChar separator line).zipIdx.filter fun (_, i) => keeps i).map (·.1))
  guarded p "cut" "dfc" found
    (after.printLines (texts.flatMap fun (_, text) => (rows text).map shown))

def sort (p : Process) (words : List String) : Process :=
  let (found, paths) := options ['k', 't'] words
  let (texts, after) := p.contents "sort" paths
  let isBefore (a b : List Char) : Bool :=
    let isSmaller := String.ofList a ≤ String.ofList b
    if has found 'n' then integerOf a < integerOf b || (integerOf a == integerOf b && isSmaller) else isSmaller
  let ordered := (texts.flatMap fun (_, text) => rows text).mergeSort isBefore
  let ordered := if has found 'r' then ordered.reverse else ordered
  guarded p "sort" "nru" found (after.printLines (if has found 'u' then ordered.eraseDups else ordered))

/-- Lines of which none is like the one before it, each with its number. -/
def grouped : List (List Char) → List (List Char × Nat)
  | [] => []
  | line :: lines => match grouped lines with
    | (other, n) :: more => if line == other then (line, n + 1) :: more else (line, 1) :: (other, n) :: more
    | [] => [(line, 1)]

/-- Leaves out lines that are like the line before them. -/
def uniq (p : Process) (words : List String) : Process :=
  let (found, paths) := options [] words
  let (texts, after) := p.contents "uniq" paths
  let shown := (grouped (texts.flatMap fun (_, text) => rows text)).map fun (line, n) =>
    if has found 'c' then formatted false 1 "%7d %s".toList [(toString n).toList, line] else line
  guarded p "uniq" "c" found (after.printLines shown)

/-- Prints the lines of files, changed as a whole. -/
def changed (p : Process) (command : String) (f : List (List Char) → List (List Char)) (words : List String) :
    Process :=
  let (texts, after) := p.contents command (options [] words).2
  after.printLines (texts.flatMap fun (_, text) => f (rows text))

def nl (p : Process) (words : List String) : Process :=
  let (_, paths) := options ['b'] words
  let number (found : List (List Char) × Nat) (line : List Char) : List (List Char) × Nat :=
    if line.isEmpty then (found.1 ++ [List.replicate 7 ' '], found.2)
    else (found.1 ++ [formatted false 1 "%6d\t%s".toList [(toString found.2).toList, line]], found.2 + 1)
  changed p "nl" (fun lines => (lines.foldl number ([], 1)).1) paths

def paste (p : Process) (words : List String) : Process :=
  let (found, paths) := options ['d'] words
  let separator := ((value? found 'd').bind (·.toList.head?)).getD '\t'
  changed p "paste" (fun lines => if has found 's' then [join [separator] lines] else lines) paths

end PipelineLint.Shell.Utility
