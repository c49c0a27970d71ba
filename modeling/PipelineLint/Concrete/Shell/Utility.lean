import PipelineLint.Concrete.Shell.Edit
import PipelineLint.Concrete.Shell.Format
import PipelineLint.Concrete.Shell.Places
import PipelineLint.Concrete.Shell.Texts

/-! # Utilities

The programs that shell scripts call by their names. `Utility.run` runs one of them.

The formulas of shell scripts: integers, names, parentheses and the operators of comparison, logic and
arithmetic, each with a precedence.
-/

namespace PipelineLint.Shell

namespace Arithmetic

open Text

/-- The binary operators with their precedences, longer signs first. -/
def operators : List (String × Nat) :=
  [("||", 1), ("&&", 2), ("==", 3), ("!=", 3), ("<=", 4), (">=", 4), ("<", 4), (">", 4), ("+", 5), ("-", 5),
   ("*", 6), ("/", 6), ("%", 6)]

def truth (b : Bool) : Int := if b then 1 else 0

/-- The value of an operator; a division by zero has none. -/
def outcome? (sign : String) (a b : Int) : Option Int :=
  match sign with
  | "||" => some (truth (a != 0 || b != 0))
  | "&&" => some (truth (a != 0 && b != 0))
  | "==" => some (truth (a == b))
  | "!=" => some (truth (a != b))
  | "<=" => some (truth (a ≤ b))
  | ">=" => some (truth (b ≤ a))
  | "<" => some (truth (a < b))
  | ">" => some (truth (b < a))
  | "+" => some (a + b)
  | "-" => some (a - b)
  | "*" => some (a * b)
  | "/" => if b == 0 then none else some (Int.tdiv a b)
  | _ => if b == 0 then none else some (Int.tmod a b)

/-- The text without white space in front. -/
def skip (cs : List Char) : List Char := cs.dropWhile fun c => c == ' ' || c == '\t' || c == '\n'

def isNameChar (c : Char) : Bool := c.isAlphanum || c == '_'

mutual
/-- Reads a number, a name, or a formula in parentheses, perhaps after signs. -/
def operand? (value : String → Int) : Nat → List Char → Option (Int × List Char)
  | 0, _ => none
  | fuel + 1, cs => match skip cs with
    | [] => none
    | '(' :: cs => do
      let (n, rest) ← formula? value 0 fuel cs
      match skip rest with
      | ')' :: rest => pure (n, rest)
      | _ => none
    | '-' :: cs => (operand? value fuel cs).map fun (n, rest) => (-n, rest)
    | '+' :: cs => operand? value fuel cs
    | '!' :: cs => (operand? value fuel cs).map fun (n, rest) => (truth (n == 0), rest)
    | c :: cs =>
      let word := (c :: cs).takeWhile isNameChar
      let rest := (c :: cs).dropWhile isNameChar
      if c.isDigit then some (integerOf word, rest)
      else if word.isEmpty then none
      else some (value (String.ofList word), rest)
def formula? (value : String → Int) (least : Nat) : Nat → List Char → Option (Int × List Char)
  | 0, _ => none
  | fuel + 1, cs => do
    let (n, rest) ← operand? value fuel cs
    further? value least n fuel rest
def further? (value : String → Int) (least : Nat) (n : Int) : Nat → List Char → Option (Int × List Char)
  | 0, _ => none
  | fuel + 1, cs =>
    match operators.findSome? fun (sign, precedence) =>
        (dropPrefix? sign.toList (skip cs)).map fun rest => (sign, precedence, rest) with
    | none => some (n, cs)
    | some (sign, precedence, rest) =>
      if precedence < least then some (n, cs)
      else do
        let (m, rest) ← formula? value (precedence + 1) fuel rest
        further? value least (← outcome? sign n m) fuel rest
end

def evaluate? (value : String → Int) (cs : List Char) : Option Int :=
  if (skip cs).isEmpty then some 0
  else match formula? value 0 (4 * cs.length + 4) cs with
    | some (n, rest) => if (skip rest).isEmpty then some n else none
    | none => none

end Arithmetic

namespace Utility

open Text Process

/-- Prints numbers from the first to the last. -/
def seq (p : Process) (words : List String) : Process :=
  let numbers := words.map fun word => integerOf word.toList
  let (first, step, last) := match numbers with
    | [last] => (1, 1, last)
    | [first, last] => (first, 1, last)
    | [first, step, last] => (first, step, last)
    | _ => (1, 1, 0)
  let count := if step == 0 then 0 else ((last - first) / step + 1).toNat
  (p.printLines ((List.range count).map fun (i : Nat) => (toString (first + step * (i : Int))).toList)).finish 0

/-- Prints the value of a formula, or the length of the match of an expression where a text starts. -/
def expr (p : Process) (words : List String) : Process :=
  let shown : Option (List Char) := match words with
    | [text, ":", wanted] =>
      let e := Expression.read false wanted.toList
      match e.matchHere? true text.toList with
      | none => some ['0']
      | some r => match r.groups.find? (·.1 == 1) with
        | some (_, part) => some part
        | none => some (toString (text.length - r.rest.length)).toList
    | [a, "=", b] => some (if a == b then ['1'] else ['0'])
    | [text] => some text.toList
    | words => (Arithmetic.evaluate? (fun _ => 0) (" ".intercalate words).toList).map fun n => (toString n).toList
  match shown with
  | none => p.complain "expr" "syntax error" 2
  | some text => (p.printLines [text]).answer (!text.isEmpty && text != ['0'])

def run (p : Process) (name : String) (words : List String) : Process :=
  match name with
  | "cat" => cat p words
  | "tee" => tee p words
  | "wc" => wc p words
  | "grep" => grep p false false words
  | "egrep" => grep p true false words
  | "fgrep" => grep p false true words
  | "head" => head p words
  | "tail" => tail p words
  | "tr" => tr p words
  | "cut" => cut p words
  | "sort" => sort p words
  | "uniq" => uniq p words
  | "sed" => sed p words
  | "seq" => seq p words
  | "basename" => basename p words
  | "dirname" => dirname p words
  | "touch" => touch p words
  | "rm" => rm p words
  | "cp" => copy p false words
  | "mv" => copy p true words
  | "mkdir" => mkdir p words
  | "rmdir" => rm p ("-r" :: words)
  | "mktemp" => mktemp p words
  | "chmod" => chmod p words
  | "expr" => expr p words
  | "which" => which p words
  | "tac" => changed p "tac" List.reverse words
  | "rev" => changed p "rev" (List.map List.reverse) words
  | "nl" => nl p words
  | "paste" => paste p words
  | "ls" => ls p words
  | "echo" => { { p with dialect := .bash }.echo words with dialect := p.dialect }
  | "printf" => p.printf words
  | "test" => p.test words
  | "[" => if words.getLast? == some "]" then p.test words.dropLast else p.complain "[" "missing ]" 2
  | "false" => p.finish 1
  | _ => p.finish 0

end Utility

end PipelineLint.Shell
