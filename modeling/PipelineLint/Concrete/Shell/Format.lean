import PipelineLint.Text.Integer
import PipelineLint.Text.Lines

/-! # Formats

How the commands that print texts of a shell script write them: escapes after a backslash, and formats with
places for arguments.
-/

namespace PipelineLint.Shell

open Text

/-- The characters that a letter after a backslash stands for. -/
def escapes : List (Char × Nat) :=
  [('\\', 92), ('a', 7), ('b', 8), ('e', 27), ('f', 12), ('n', 10), ('r', 13), ('t', 9), ('v', 11)]

def isOctal (c : Char) : Bool := '0' ≤ c && c ≤ '7'

/-- The character that at most `count` octal digits stand for, and the rest. -/
def octal (count : Nat) (cs : List Char) : Char × List Char :=
  let digits := (cs.take count).takeWhile isOctal
  let n := digits.foldl (fun n c => 8 * n + (c.toNat - '0'.toNat)) 0
  (Char.ofNat (n % 256), cs.drop digits.length)

/-- What stands for an escape after its backslash, and the rest. What is no escape keeps its backslash. There are
`extended` escapes for a character by its hexadecimal digits and for one more letter. -/
def escape (extended : Bool) (cs : List Char) : List Char × List Char :=
  match cs with
  | [] => (['\\'], [])
  | c :: rest => match escapes.find? (·.1 == c) with
    | some (_, n) => ([Char.ofNat n], rest)
    | none =>
      let digits := (rest.take 2).takeWhile fun d => (hexValue? d).isSome
      if isOctal c then
        let (d, rest) := octal 3 cs
        ([d], rest)
      else if extended && c == 'E' then ([Char.ofNat 27], rest)
      else if extended && c == 'x' && !digits.isEmpty then
        ([Char.ofNat ((ofHex? digits).getD 0)], rest.drop digits.length)
      else (['\\'], cs)

/-- A text with its escapes replaced; it ends where an escape says so. A zero may stand before octal digits. -/
def unescape (extended : Bool) : Nat → List Char → List Char × Bool
  | 0, _ => ([], false)
  | _, [] => ([], false)
  | _, '\\' :: 'c' :: _ => ([], true)
  | fuel + 1, '\\' :: '0' :: cs =>
    let (d, rest) := octal 3 cs
    let (more, ended) := unescape extended fuel rest
    (d :: more, ended)
  | fuel + 1, c :: cs =>
    let (shown, rest) := if c == '\\' then escape extended cs else ([c], cs)
    let (more, ended) := unescape extended fuel rest
    (shown ++ more, ended)

/-- A text with its escapes replaced, and whether an escape ends the output. -/
def unescaped (extended : Bool) (cs : List Char) : List Char × Bool := unescape extended (cs.length + 1) cs

/-- The integer that an argument is: decimal, or octal or hexadecimal after a zero; or the number of a character
after a quote. -/
def integerOf (cs : List Char) : Int :=
  let (negative, cs) := match cs with
    | '-' :: rest => (true, rest)
    | '+' :: rest => (false, rest)
    | _ => (false, cs)
  let n := match cs with
    | '\'' :: c :: _ => c.toNat
    | '"' :: c :: _ => c.toNat
    | '0' :: 'x' :: rest => (ofHex? rest).getD 0
    | '0' :: rest => (rest.takeWhile isOctal).foldl (fun n c => 8 * n + (c.toNat - '0'.toNat)) 0
    | _ => ofDigits (cs.takeWhile Char.isDigit)
  if negative then -(n : Int) else n

structure Directive where
  left : Bool := false
  zeros : Bool := false
  plus : Bool := false
  width : Nat := 0
  precision : Option Nat := none
  kind : Char
  deriving Repr, Inhabited

namespace Directive

/-- Reads a place after its percent sign, with the arguments that give its width and precision. -/
def read? (cs : List Char) (arguments : List (List Char)) : Option (Directive × List Char × List (List Char)) :=
  let flags := cs.takeWhile fun c => ['-', '0', '+', ' ', '#'].contains c
  let count (cs : List Char) (arguments : List (List Char)) : Nat × List Char × List (List Char) :=
    match cs with
    | '*' :: rest => ((integerOf (arguments.headD [])).toNat, rest, arguments.drop 1)
    | _ => (ofDigits (cs.takeWhile Char.isDigit), cs.dropWhile Char.isDigit, arguments)
  let (width, rest, arguments) := count (cs.drop flags.length) arguments
  let (precision, rest, arguments) := match rest with
    | '.' :: rest =>
      let (n, rest, arguments) := count rest arguments
      (some n, rest, arguments)
    | _ => (none, rest, arguments)
  match rest with
  | [] => none
  | kind :: rest =>
    some ({ left := flags.contains '-', zeros := flags.contains '0', plus := flags.contains '+', width,
            precision, kind }, rest, arguments)

def fill (d : Directive) (text : List Char) (isNumber : Bool) : List Char :=
  let missing := d.width - text.length
  if d.left then text ++ List.replicate missing ' '
  else if d.zeros && isNumber then match text with
    | '-' :: digits => '-' :: List.replicate missing '0' ++ digits
    | _ => List.replicate missing '0' ++ text
  else List.replicate missing ' ' ++ text

def number (d : Directive) (n : Int) : List Char :=
  let base := match d.kind with
    | 'o' => 8
    | 'x' => 16
    | 'X' => 16
    | _ => 10
  let digits := Nat.toDigits base n.natAbs
  let digits := if d.kind == 'X' then digits.map Char.toUpper else digits
  let digits := List.replicate (d.precision.getD 0 - digits.length) '0' ++ digits
  if n < 0 then '-' :: digits else if d.plus then '+' :: digits else digits

/-- The argument in a place, and whether an escape ends the output. -/
def show? (d : Directive) (extended : Bool) (argument : List Char) : Option (List Char × Bool) :=
  let cut (text : List Char) : List Char := match d.precision with
    | some n => text.take n
    | none => text
  match d.kind with
  | 's' => some (d.fill (cut argument) false, false)
  | 'b' =>
    let (text, ended) := unescaped extended argument
    some (d.fill (cut text) false, ended)
  | 'c' => some (d.fill (argument.take 1) false, false)
  | kind =>
    if ['d', 'i', 'u', 'o', 'x', 'X'].contains kind then
      some (d.fill (d.number (integerOf argument)) true, false)
    else none

end Directive

/-- What stands for an escape in a format. In an `extended` one, quotes can have a backslash. -/
def formatEscape (extended : Bool) (cs : List Char) : List Char × List Char :=
  match cs with
  | c :: rest => if extended && ['"', '\'', '?'].contains c then ([c], rest) else escape extended cs
  | [] => escape extended cs

/-- The text of a format: with the arguments in its places, what is left of them, and whether the output
ends. -/
def formatOnce (extended : Bool) : Nat → List Char → List (List Char) → List Char × List (List Char) × Bool
  | 0, _, arguments => ([], arguments, false)
  | _, [], arguments => ([], arguments, false)
  | fuel + 1, '%' :: '%' :: cs, arguments =>
    let (more, left, ended) := formatOnce extended fuel cs arguments
    ('%' :: more, left, ended)
  | fuel + 1, '%' :: cs, arguments =>
    match Directive.read? cs arguments with
    | none => ([], arguments, true)
    | some (d, rest, arguments) => match d.show? extended (arguments.headD []) with
      | none => ([], arguments, true)
      | some (text, true) => (text, arguments.drop 1, true)
      | some (text, false) =>
        let (more, left, ended) := formatOnce extended fuel rest (arguments.drop 1)
        (text ++ more, left, ended)
  | fuel + 1, c :: cs, arguments =>
    let (shown, rest) := if c == '\\' then formatEscape extended cs else ([c], cs)
    let (more, left, ended) := formatOnce extended fuel rest arguments
    (shown ++ more, left, ended)

def formatted (extended : Bool) : Nat → List Char → List (List Char) → List Char
  | 0, _, _ => []
  | fuel + 1, format, arguments =>
    let (text, left, ended) := formatOnce extended (format.length + 1) format arguments
    if ended || left.isEmpty || left.length = arguments.length then text
    else text ++ formatted extended fuel format left

end PipelineLint.Shell
