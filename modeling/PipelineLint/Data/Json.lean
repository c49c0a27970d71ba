import PipelineLint.Data.Value
import PipelineLint.Text.Decimal

/-! # JSON

Reading JSON. A number without point and exponent is an integer if it fits into 64 bits, and else a double.
The digits and the power of ten of a double are rounded one after the other, so that it need not be the
nearest one; a number beyond all doubles is an error. Names may be repeated in a mapping; what that means is up to the
reader of the data. Lists and mappings nest at most `maxDepth` deep. Where only some parts of a text matter, a `Shape`
says which; the others are skipped, so that they only need to be written as values are.
-/

namespace PipelineLint.Data

open Text

/-- How deep lists and mappings can nest. -/
def maxDepth : Nat := 127

def isJsonBlank (c : Char) : Bool := c == ' ' || c == '\t' || c == '\n' || c == '\r'

/-- The text without white space in front. -/
def skipBlank (cs : List Char) : List Char := cs.dropWhile isJsonBlank

/-- Reads four hexadecimal digits. -/
def fourHex? : List Char → Option (Nat × List Char)
  | a :: b :: c :: d :: cs => (ofHex? [a, b, c, d]).map (·, cs)
  | _ => none

/-- Reads the number of a character after `\u`: one unit, or two that form a pair. -/
def unicode? (cs : List Char) : Option (Char × List Char) := do
  let (n, rest) ← fourHex? cs
  if 0xD800 ≤ n && n < 0xDC00 then
    match rest with
    | '\\' :: 'u' :: more =>
      let (low, rest) ← fourHex? more
      if 0xDC00 ≤ low && low < 0xE000 then
        pure (Char.ofNat (0x10000 + (n - 0xD800) * 0x400 + (low - 0xDC00)), rest)
      else none
    | _ => none
  else if 0xDC00 ≤ n && n < 0xE000 then none
  else pure (Char.ofNat n, rest)

/-- The character that a letter after a backslash stands for. -/
def escaped? : Char → Option Char
  | '"' => some '"'
  | '\\' => some '\\'
  | '/' => some '/'
  | 'b' => some (Char.ofNat 8)
  | 'f' => some (Char.ofNat 12)
  | 'n' => some '\n'
  | 'r' => some '\r'
  | 't' => some '\t'
  | _ => none

/-- Reads a text up to its closing quote. Every step uses up a character, so that the length of the text is
enough fuel. -/
def textBody? : Nat → List Char → Option (List Char × List Char)
  | 0, _ => none
  | _, [] => none
  | _, '"' :: cs => some ([], cs)
  | fuel + 1, '\\' :: 'u' :: cs => do
    let (c, rest) ← unicode? cs
    let (body, rest) ← textBody? fuel rest
    pure (c :: body, rest)
  | fuel + 1, '\\' :: e :: cs => do
    let c ← escaped? e
    let (body, rest) ← textBody? fuel cs
    pure (c :: body, rest)
  | fuel + 1, c :: cs =>
    if c.toNat < 32 || c == '\\' then none
    else (textBody? fuel cs).map fun (body, rest) => (c :: body, rest)

/-- Reads a text after its opening quote. -/
def text? (cs : List Char) : Option (String × List Char) :=
  (textBody? (cs.length + 1) cs).map fun (body, rest) => (String.ofList body, rest)

/-- The digits of a whole number: no zero in front of others. -/
def isWhole (digits : List Char) : Bool :=
  !digits.isEmpty && (digits.length = 1 || digits.head? != some '0')

/-- The number that `n` followed by digits is as long as it has 64 bits, and the digits after that. -/
def fitting (n : Nat) : List Char → Nat × List Char
  | [] => (n, [])
  | c :: cs =>
    let more := 10 * n + (c.toNat - '0'.toNat)
    if more < Nat.pow 2 64 then fitting more cs else (n, c :: cs)

/-- The greatest power of ten that is a double. -/
def maxPower : Nat := 308

/-- The double nearest to a power of ten. -/
def power (n : Nat) : Float := Float.ofScientific 1 false n

/-- `f * 10 ^ exponent`, each product rounded; an infinite one is none. A zero stays zero, and so does what
becomes zero after at most `steps` divisions. -/
def shifted? : Nat → Float → Int → Option Float
  | 0, _, _ => some 0
  | steps + 1, f, exponent =>
    if exponent.natAbs ≤ maxPower then
      if exponent < 0 then some (f / power exponent.natAbs)
      else
        let product := f * power exponent.natAbs
        if product.isInf then none else some product
    else if f == 0 then some f
    else if 0 < exponent then none
    else shifted? steps (f / power maxPower) (exponent + maxPower)

/-- The double of a decimal: its digits become a double as far as they fit into 64 bits, and the product
with the power of ten another. -/
def double? (negative : Bool) (significand : Nat) (exponent : Int) : Option Data :=
  (shifted? 4 significand.toUInt64.toFloat exponent).map fun f => .float (if negative then -f else f)

/-- The number that a sign, whole digits and perhaps digits after the point and an exponent write: an integer
if it has neither and fits into 64 bits, else a double. -/
def numberOf? (negative : Bool) (whole : List Char) (fraction : Option (List Char)) (exponent : Option Int) :
    Option Data :=
  let (n, left) := fitting 0 whole
  match fraction, exponent, left with
  | none, none, [] =>
    if !negative then some (.integer n)
    else if 0 < n && n ≤ Nat.pow 2 63 then some (.integer (-(n : Int)))
    else double? true n 0
  | _, _, _ =>
    let digits := fraction.getD []
    let (n, dropped) := fitting n digits
    double? negative n ((left.length : Int) - (digits.length - dropped.length : Nat) + exponent.getD 0)

structure NumberText where
  negative : Bool
  whole : List Char
  fraction : Option (List Char)
  exponent : Option Int
  deriving DecidableEq, Repr, Inhabited

def numberText? (cs : List Char) : Option (NumberText × List Char) := do
  let (negative, cs) := match cs with
    | '-' :: rest => (true, rest)
    | _ => (false, cs)
  let whole := cs.takeWhile Char.isDigit
  let rest := cs.dropWhile Char.isDigit
  if !isWhole whole then none
  let (fraction, rest) ← match rest with
    | '.' :: more =>
      let fraction := more.takeWhile Char.isDigit
      if fraction.isEmpty then none else pure (some fraction, more.dropWhile Char.isDigit)
    | _ => pure (none, rest)
  let (exponent, rest) ← match rest with
    | [] => pure (none, rest)
    | e :: more =>
      if e == 'e' || e == 'E' then do
        let (minus, more) := Decimal.sign more
        let n ← digits? (more.takeWhile Char.isDigit)
        pure (some (if minus then -(n : Int) else n), more.dropWhile Char.isDigit)
      else pure (none, rest)
  pure (⟨negative, whole, fraction, exponent⟩, rest)

def number? (cs : List Char) : Option (Data × List Char) := do
  let (n, rest) ← numberText? cs
  pure (← numberOf? n.negative n.whole n.fraction n.exponent, rest)

/-- The text behind the closing quote of a text. Escapes need not stand for characters. -/
def skipText? : Nat → List Char → Option (List Char)
  | 0, _ => none
  | _, [] => none
  | _, '"' :: cs => some cs
  | fuel + 1, '\\' :: 'u' :: cs => do
    let (_, rest) ← fourHex? cs
    skipText? fuel rest
  | fuel + 1, '\\' :: e :: cs => if (escaped? e).isSome then skipText? fuel cs else none
  | fuel + 1, c :: cs => if c.toNat < 32 || c == '\\' then none else skipText? fuel cs

/-- The text behind a name and its colon. -/
def skipName? (cs : List Char) : Option (List Char) :=
  match skipBlank cs with
  | '"' :: cs => do dropPrefix? [':'] (skipBlank (← skipText? (cs.length + 1) cs))
  | _ => none

/-- The text behind a value and everything up to the closing brackets of what is open around it, the innermost
first. Values can nest to any depth. `isBehind` says that the value has been read. -/
def skip? : Nat → List Char → Bool → List Char → Option (List Char)
  | 0, _, _, _ => none
  | _, [], true, cs => some cs
  | fuel + 1, close :: outer, true, cs => match skipBlank cs with
    | ',' :: rest =>
      if close == ']' then skip? fuel (close :: outer) false rest
      else do skip? fuel (close :: outer) false (← skipName? rest)
    | c :: rest => if c == close then skip? fuel outer true rest else none
    | [] => none
  | fuel + 1, pending, false, cs => match skipBlank cs with
    | '"' :: cs => do skip? fuel pending true (← skipText? (cs.length + 1) cs)
    | 'n' :: 'u' :: 'l' :: 'l' :: cs => skip? fuel pending true cs
    | 't' :: 'r' :: 'u' :: 'e' :: cs => skip? fuel pending true cs
    | 'f' :: 'a' :: 'l' :: 's' :: 'e' :: cs => skip? fuel pending true cs
    | '[' :: cs => match skipBlank cs with
      | ']' :: rest => skip? fuel pending true rest
      | cs => skip? fuel (']' :: pending) false cs
    | '\x7b' :: cs => match skipBlank cs with
      | '\x7d' :: rest => skip? fuel pending true rest
      | cs => do skip? fuel ('\x7d' :: pending) false (← skipName? cs)
    | cs => do
      let (_, rest) ← numberText? cs
      skip? fuel pending true rest

/-- Which parts of a value matter. -/
inductive Shape where
  | whole
  | ignored
  | items (shape : Shape)
  /-- Some fields of a record. -/
  | fields (shapes : List (String × Shape))
  deriving Inhabited

namespace Shape

def ofName (name : String) : Shape → Shape
  | .fields shapes => ((shapes.find? (·.1 == name)).map (·.2)).getD .ignored
  | _ => .whole

def ofItem (n : Nat) : Shape → Shape
  | .items shape => shape
  | .fields shapes => (shapes[n]?.map (·.2)).getD .whole
  | _ => .whole

end Shape

mutual
/-- Reads what matters of a value that nests at most `depth` deep. What is ignored is nothing. -/
def value? (shape : Shape) (depth : Nat) : Nat → List Char → Option (Data × List Char)
  | 0, _ => none
  | fuel + 1, cs => match shape with
    | .ignored => (skip? (2 * cs.length + 2) [] false cs).map (.null, ·)
    | _ => content? shape depth fuel cs
/-- Reads what matters of a value, which is not all ignored. -/
def content? (shape : Shape) (depth : Nat) : Nat → List Char → Option (Data × List Char)
  | 0, _ => none
  | fuel + 1, cs => match skipBlank cs with
    | '"' :: cs => (text? cs).map fun (s, rest) => (.text s, rest)
    | 'n' :: 'u' :: 'l' :: 'l' :: cs => some (.null, cs)
    | 't' :: 'r' :: 'u' :: 'e' :: cs => some (.bool true, cs)
    | 'f' :: 'a' :: 'l' :: 's' :: 'e' :: cs => some (.bool false, cs)
    | '[' :: cs =>
      if depth = 0 then none
      else match skipBlank cs with
        | ']' :: rest => some (.list [], rest)
        | cs => (items? shape (depth - 1) 0 fuel cs).map fun (items, rest) => (.list items, rest)
    | '\x7b' :: cs =>
      if depth = 0 then none
      else match skipBlank cs with
        | '\x7d' :: rest => some (.map [], rest)
        | cs => (entries? shape (depth - 1) fuel cs).map fun (entries, rest) => (.map entries, rest)
    | cs => number? cs
/-- Reads the items of a list, the first of which has a number, up to its closing bracket. -/
def items? (shape : Shape) (depth n : Nat) : Nat → List Char → Option (List Data × List Char)
  | 0, _ => none
  | fuel + 1, cs => do
    let (item, rest) ← value? (shape.ofItem n) depth fuel cs
    match skipBlank rest with
    | ']' :: rest => pure ([item], rest)
    | ',' :: rest =>
      let (items, rest) ← items? shape depth (n + 1) fuel rest
      pure (item :: items, rest)
    | _ => none
/-- Reads the entries of a mapping up to its closing brace. -/
def entries? (shape : Shape) (depth : Nat) : Nat → List Char → Option (List (String × Data) × List Char)
  | 0, _ => none
  | fuel + 1, cs => match skipBlank cs with
    | '"' :: cs => do
      let (name, rest) ← text? cs
      match skipBlank rest with
      | ':' :: rest =>
        let (item, rest) ← value? (shape.ofName name) depth fuel rest
        match skipBlank rest with
        | '\x7d' :: rest => pure ([(name, item)], rest)
        | ',' :: rest =>
          let (entries, rest) ← entries? shape depth fuel rest
          pure ((name, item) :: entries, rest)
        | _ => none
      | _ => none
    | _ => none
end

/-- Reads what matters of a JSON text: one value and nothing else. -/
def ofShapedJson? (shape : Shape) (cs : List Char) : Option Data := do
  let (d, rest) ← value? shape maxDepth (4 * cs.length + 4) cs
  if (skipBlank rest).isEmpty then pure d else none

/-- Reads a JSON text: one value and nothing else. -/
def ofJson? (cs : List Char) : Option Data := ofShapedJson? .whole cs

end PipelineLint.Data
