import PipelineLint.Text.Lines

/-! # Plain data

Data without places: what schemas describe and what settings and linter reports are read from.

The shortest decimal of a double is the one with the fewest digits among those that the double is the nearest
one to; of several with as many digits it is the one nearest to the double, and of two equally near the one
with an even last digit. A double is taken as `m * 2 ^ q`; all comparisons are exact.

Integers and finite doubles are compared by value: a double is `m * 2 ^ q`, so that the comparison is exact.

A record is written as a mapping with names, or as a list with the fields in their order, in which the last
ones may be left out. Names that the record does not have are ignored in a mapping, and so are the items behind the
fields in a list, unless the record is to be exact.
-/

namespace PipelineLint

namespace Text

/-- A positive number as a quotient. -/
structure Quotient where
  top : Nat
  bottom : Nat
  deriving DecidableEq, Repr

namespace Quotient

def less (x y : Quotient) : Bool := x.top * y.bottom < y.top * x.bottom

def scaled (m : Nat) (q : Int) : Quotient :=
  if q < 0 then ⟨m, Nat.pow 2 q.natAbs⟩ else ⟨m * Nat.pow 2 q.natAbs, 1⟩

def decimal (n : Nat) (e : Int) : Quotient :=
  if e < 0 then ⟨n, Nat.pow 10 e.natAbs⟩ else ⟨n * Nat.pow 10 e.natAbs, 1⟩

end Quotient

/-- A positive double: a value with the ends of the interval of numbers that it is the nearest double to. -/
structure Rounding where
  value : Quotient
  low : Quotient
  high : Quotient
  /-- The ends belong to the interval. -/
  closed : Bool
  deriving Repr

namespace Rounding

/-- The interval of `m * 2 ^ q`. Below a power of two the doubles lie closer. -/
def ofBinary (m : Nat) (q : Int) (narrowBelow : Bool) : Rounding :=
  { value := .scaled (4 * m) (q - 2)
    low := .scaled (4 * m - if narrowBelow then 1 else 2) (q - 2)
    high := .scaled (4 * m + 2) (q - 2)
    closed := m % 2 == 0 }

/-- A number lies in the interval. -/
def contains (r : Rounding) (x : Quotient) : Bool :=
  if r.closed then !x.less r.low && !r.high.less x else r.low.less x && x.less r.high

/-- The greatest `n` with `n * 10 ^ e` at most the value. -/
def floorAt (r : Rounding) (e : Int) : Nat :=
  if e < 0 then r.value.top * Nat.pow 10 e.natAbs / r.value.bottom
  else r.value.top / (r.value.bottom * Nat.pow 10 e.natAbs)

/-- The number of digits before the point, counted down below zero for zeros after it. -/
def magnitude (r : Rounding) : Int :=
  let whole := r.value.top / r.value.bottom
  if whole > 0 then (Nat.toDigits 10 whole).length
  else
    let rec below : Nat → Nat → Int
      | 0, _ => 0
      | steps + 1, top => if top * 10 ≥ r.value.bottom then 0 else below steps (top * 10) - 1
    below 400 r.value.top

/-- The nearer of two neighbours on the grid of `10 ^ e`, the even one if both are as near. -/
def nearer (r : Rounding) (e : Int) (n : Nat) : Nat :=
  let middle := Quotient.decimal (10 * n + 5) (e - 1)
  if r.value.less middle then n
  else if middle.less r.value then n + 1
  else if n % 2 == 0 then n else n + 1

/-- The number on the grid of `10 ^ e` to take, if one lies in the interval. -/
def onGrid? (r : Rounding) (e : Int) : Option Nat :=
  let n := r.floorAt e
  match r.contains (.decimal n e), r.contains (.decimal (n + 1) e) with
  | true, true => some (r.nearer e n)
  | true, false => some n
  | false, true => some (n + 1)
  | false, false => none

/-- The shortest decimal `n * 10 ^ e`, searched on finer and finer grids. -/
def shortest (r : Rounding) : Nat × Int :=
  let rec search : Nat → Int → Nat × Int
    | 0, e => (r.floorAt e, e)
    | steps + 1, e => match r.onGrid? e with
      | some n => (n, e)
      | none => search steps (e - 1)
  search 18 (r.magnitude - 1)

end Rounding

/-- The digits of a number without zeros at the end, and the power of ten they are multiplied with. -/
def significant (n : Nat) (e : Int) : List Char × Int :=
  let digits := Nat.toDigits 10 n
  let kept := (digits.reverse.dropWhile (· == '0')).reverse
  (kept, e + (digits.length - kept.length : Nat))

/-- The digits of the shortest decimal of a finite double above zero, and their power of ten. -/
def shortestDigits (f : Float) : List Char × Int :=
  let bits := f.toBits.toNat
  let fraction : Nat := bits % Nat.pow 2 52
  let exponent : Nat := bits / Nat.pow 2 52 % Nat.pow 2 11
  let r := if exponent = 0 then Rounding.ofBinary fraction (-1074) false
    else Rounding.ofBinary (fraction + Nat.pow 2 52) ((exponent : Int) - 1075) (fraction == 0 && exponent > 1)
  let (n, e) := r.shortest
  significant n e

end Text

inductive Data where
  | null
  | bool (value : Bool)
  | integer (value : Int)
  | float (value : Float)
  | text (value : String)
  | list (items : List Data)
  /-- A mapping with its entries in order. -/
  | map (entries : List (String × Data))
  deriving Inhabited

namespace Data

/-- Puts an entry into entries that are ordered by name; a name that is there gets the new value. -/
def insertEntry {α : Type} (name : String) (value : α) : List (String × α) → List (String × α)
  | [] => [(name, value)]
  | (other, held) :: entries =>
    if name == other then (name, value) :: entries
    else if name < other then (name, value) :: (other, held) :: entries
    else (other, held) :: insertEntry name value entries

/-- Entries ordered by name; of two with one name the last counts. -/
def orderEntries {α : Type} (entries : List (String × α)) : List (String × α) :=
  entries.foldl (fun ordered (name, value) => insertEntry name value ordered) []

mutual
def ordered : Data → Data
  | .list items => .list (orderedAll items)
  | .map entries => .map (orderEntries (orderedEntries entries))
  | d => d
def orderedAll : List Data → List Data
  | [] => []
  | d :: ds => ordered d :: orderedAll ds
def orderedEntries : List (String × Data) → List (String × Data)
  | [] => []
  | (name, d) :: entries => (name, ordered d) :: orderedEntries entries
end

def lookup? (entries : List (String × Data)) (name : String) : Option Data :=
  (entries.find? (·.1 == name)).map (·.2)

/-- The hexadecimal digit of a number below sixteen. -/
def hexDigit (n : Nat) : Char := if n < 10 then Char.ofNat (48 + n) else Char.ofNat (87 + n)

/-- A character inside quotes. -/
def quoteChar (c : Char) : List Char :=
  match c with
  | '"' => ['\\', '"']
  | '\\' => ['\\', '\\']
  | '\n' => ['\\', 'n']
  | '\r' => ['\\', 'r']
  | '\t' => ['\\', 't']
  | c =>
    if c.toNat == 8 then ['\\', 'b']
    else if c.toNat == 12 then ['\\', 'f']
    else if c.toNat < 32 then ['\\', 'u', '0', '0', hexDigit (c.toNat / 16), hexDigit (c.toNat % 16)]
    else [c]

def quote (s : String) : String :=
  "\"" ++ String.ofList (s.toList.flatMap quoteChar) ++ "\""

/-- The text of a finite double: its shortest digits with a point among them or a zero behind it, and with an
exponent where the point would be more than sixteen digits to the right or five zeros to the left. A positive
exponent has `plus` in front. -/
def floatTextWith (plus : String) (f : Float) : String :=
  let sign := if f.toBits.toNat ≥ Nat.pow 2 63 then "-" else ""
  if f == 0 then sign ++ "0.0"
  else
    let (digits, e) := Text.shortestDigits f
    let point := (digits.length : Int) + e
    let zeros (n : Nat) : List Char := List.replicate n '0'
    let body := if 0 ≤ e && point ≤ 16 then digits ++ zeros e.toNat ++ ['.', '0']
      else if 0 < point && point ≤ 16 then
        digits.take point.toNat ++ ['.'] ++ digits.drop point.toNat
      else if -5 < point && point ≤ 0 then ['0', '.'] ++ zeros point.natAbs ++ digits
      else
        let fraction := if digits.length = 1 then [] else '.' :: digits.drop 1
        let exponent := (if 0 < point then plus else "") ++ toString (point - 1)
        digits.take 1 ++ fraction ++ ['e'] ++ exponent.toList
    sign ++ String.ofList body

/-- The text of a finite double in JSON. -/
def floatText (f : Float) : String := floatTextWith "+" f

mutual
/-- The text of data in one line without blanks. -/
def compact : Data → String
  | .null => "null"
  | .bool value => if value then "true" else "false"
  | .integer value => toString value
  | .float value => floatText value
  | .text s => quote s
  | .list items => "[" ++ ",".intercalate (compactAll items) ++ "]"
  | .map entries => "\x7b" ++ ",".intercalate (compactEntries entries) ++ "\x7d"
def compactAll : List Data → List String
  | [] => []
  | d :: ds => compact d :: compactAll ds
def compactEntries : List (String × Data) → List String
  | [] => []
  | (name, d) :: entries => (quote name ++ ":" ++ compact d) :: compactEntries entries
end

mutual
/-- The lines of data, each part in a line of its own and indented by two blanks under what it is a part of.
`indent` are the blanks before the closing bracket. -/
def pretty (indent : String) : Data → String
  | .list [] => "[]"
  | .list (d :: ds) =>
    "[\n" ++ ",\n".intercalate (prettyAll (indent ++ "  ") (d :: ds)) ++ "\n" ++ indent ++ "]"
  | .map [] => "\x7b\x7d"
  | .map (e :: es) =>
    "\x7b\n" ++ ",\n".intercalate (prettyEntries (indent ++ "  ") (e :: es)) ++ "\n" ++ indent ++ "\x7d"
  | d => compact d
def prettyAll (indent : String) : List Data → List String
  | [] => []
  | d :: ds => (indent ++ pretty indent d) :: prettyAll indent ds
def prettyEntries (indent : String) : List (String × Data) → List String
  | [] => []
  | (name, d) :: entries =>
    (indent ++ quote name ++ ": " ++ pretty indent d) :: prettyEntries indent entries
end

end Data

namespace Data

/-- The value of a finite double as a quotient whose lower part is positive. -/
def quotient (f : Float) : Int × Nat :=
  let bits := f.toBits.toNat
  let fraction : Nat := bits % Nat.pow 2 52
  let exponent : Nat := bits / Nat.pow 2 52 % Nat.pow 2 11
  let size := if exponent = 0 then Text.Quotient.scaled fraction (-1074)
    else .scaled (fraction + Nat.pow 2 52) ((exponent : Int) - 1075)
  (if bits ≥ Nat.pow 2 63 then -(size.top : Int) else size.top, size.bottom)

def quotient? : Data → Option (Int × Nat)
  | .integer n => some (n, 1)
  | .float f => some (quotient f)
  | _ => none

def less (a b : Int × Nat) : Bool := a.1 * b.2 < b.1 * a.2

/-- The number has no part after the point. -/
def isIntegral (a : Int × Nat) : Bool := a.1 % a.2 == 0

mutual
def same : Data → Data → Bool
  | .null, .null => true
  | .bool a, .bool b => a == b
  | .text a, .text b => a == b
  | .list as, .list bs => sameItems as bs
  | .map as, .map bs => sameEntries as bs
  | .integer a, .integer b => a == b
  | .integer a, .float b => !less (a, 1) (quotient b) && !less (quotient b) (a, 1)
  | .float a, .integer b => !less (quotient a) (b, 1) && !less (b, 1) (quotient a)
  | .float a, .float b => !less (quotient a) (quotient b) && !less (quotient b) (quotient a)
  | _, _ => false
def sameItems : List Data → List Data → Bool
  | [], [] => true
  | a :: as, b :: bs => same a b && sameItems as bs
  | _, _ => false
def sameEntries : List (String × Data) → List (String × Data) → Bool
  | [], [] => true
  | (name, a) :: as, (other, b) :: bs => name == other && same a b && sameEntries as bs
  | _, _ => false
end

end Data

namespace Data

/-- The fields of a record with given names. A name that is repeated is an error. -/
def fields? (names : List String) : Data → Option (List (Option Data))
  | .map entries =>
    if names.any fun name => entries.countP (·.1 == name) > 1 then none
    else some (names.map (lookup? entries))
  | .list items =>
    some (((items.take names.length).map some) ++ List.replicate (names.length - items.length) none)
  | _ => none

/-- The fields of a record in which an item too many is an error. -/
def exactFields? (names : List String) (d : Data) : Option (List (Option Data)) :=
  match d with
  | .list items => if items.length ≤ names.length then d.fields? names else none
  | _ => d.fields? names

def bool? : Data → Option Bool
  | .bool value => some value
  | _ => none

def string? : Data → Option String
  | .text s => some s
  | _ => none

def optionalString? : Data → Option (Option String)
  | .null => some none
  | .text s => some (some s)
  | _ => none

def strings? : Data → Option (List String)
  | .list items => items.mapM string?
  | _ => none

/-- A number from zero to below `2 ^ bits`. -/
def natural? (bits : Nat) : Data → Option Nat
  | .integer n => if 0 ≤ n && n.toNat < Nat.pow 2 bits then some n.toNat else none
  | _ => none

def fieldOr {α : Type} (default : α) (read : Data → Option α) : Option Data → Option α
  | none => some default
  | some d => read d

end Data

end PipelineLint
