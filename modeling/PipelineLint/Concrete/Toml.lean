import PipelineLint.Data.Value
import PipelineLint.Text.Decimal

/-! # TOML

Reading TOML: lines with keys and values, and headers that name the table the next lines belong to.

A settings file defines tables line by line. A table that was only named on the way to another one can be defined
later, once; a table that dotted keys have made can only be extended by further dotted keys in the same place.
-/

namespace PipelineLint.Data

inductive Slot where
  | value (d : Data)
  /-- A table. It is open if it was only named so far, and dotted if dotted keys have made it. -/
  | table (isOpen isDotted : Bool) (slots : List (String × Slot))
  | tables (items : List (List (String × Slot)))
  deriving Inhabited

abbrev Slots := List (String × Slot)

namespace Slots

def get? (slots : Slots) (name : String) : Option Slot := (slots.find? (·.1 == name)).map (·.2)

def set (slots : Slots) (name : String) (slot : Slot) : Slots :=
  if slots.any (·.1 == name) then slots.map fun (other, held) => (other, if other == name then slot else held)
  else slots ++ [(name, slot)]

/-- Changes the table at the end of a path. Names on the way that stand for nothing become tables. Dotted keys
cannot lead into a table that is not open. The flags of `change` say whether the table there is dotted. -/
def changeAt (isDotted : Bool) (change : Bool → Slots → Option Slots) (atDotted : Bool) :
    List String → Slots → Option Slots
  | [], slots => change atDotted slots
  | name :: path, slots => match slots.get? name with
    | none => do
      let inner ← changeAt isDotted change isDotted path []
      pure (slots.set name (.table true isDotted inner))
    | some (.value _) => none
    | some (.table isOpen wasDotted inner) =>
      if isDotted && !isOpen then none
      else do
        let inner ← changeAt isDotted change wasDotted path inner
        pure (slots.set name (.table isOpen wasDotted inner))
    | some (.tables []) => none
    | some (.tables (last :: before)) => do
      let last ← changeAt isDotted change false path last
      pure (slots.set name (.tables (last :: before)))

/-- Defines a key. A key with points belongs to a table that dotted keys have made, and one without to a table
that they have not. -/
def define (slots : Slots) (path : List String) (name : String) (d : Data) (atDotted : Bool) : Option Slots :=
  changeAt true (fun atDotted slots =>
    if atDotted == path.isEmpty || slots.any (·.1 == name) then none
    else some (slots ++ [(name, .value d)])) atDotted path slots

def openTable (slots : Slots) (path : List String) (name : String) : Option Slots :=
  changeAt false (fun _ slots => match slots.get? name with
    | none => some (slots.set name (.table false false []))
    | some (.table true false inner) => some (slots.set name (.table false false inner))
    | some _ => none) false path slots

def addTable (slots : Slots) (path : List String) (name : String) : Option Slots :=
  changeAt false (fun _ slots => match slots.get? name with
    | none => some (slots.set name (.tables [[]]))
    | some (.tables items) => some (slots.set name (.tables ([] :: items)))
    | some _ => none) false path slots

def defineIn (slots : Slots) (header : List String) (path : List String) (name : String) (d : Data) :
    Option Slots :=
  changeAt false (fun atDotted table => define table path name d atDotted) false header slots

end Slots

mutual
def ofSlot : Slot → Data
  | .value d => d
  | .table _ _ slots => .map (ofSlots slots)
  | .tables items => .list (ofTables items).reverse
def ofSlots : List (String × Slot) → List (String × Data)
  | [] => []
  | (name, slot) :: slots => (name, ofSlot slot) :: ofSlots slots
def ofTables : List (List (String × Slot)) → List Data
  | [] => []
  | slots :: items => .map (ofSlots slots) :: ofTables items
end

namespace Toml

open Text

def isGap (c : Char) : Bool := c == ' ' || c == '\t'

/-- A character that a comment or a text can hold. -/
def isAllowed (c : Char) : Bool := c == '\t' || (32 ≤ c.toNat && c.toNat != 127)

/-- The text without blanks in front. -/
def skipGap (cs : List Char) : List Char := cs.dropWhile isGap

/-- The text behind a line break. -/
def newline? : List Char → Option (List Char)
  | '\n' :: cs => some cs
  | '\r' :: '\n' :: cs => some cs
  | _ => none

def skipComment? (cs : List Char) : Option (List Char) :=
  match cs with
  | '#' :: cs =>
    let rest := cs.dropWhile isAllowed
    match rest with
    | [] => some rest
    | _ => (newline? rest).map fun _ => rest
  | cs => some cs

/-- The text behind blanks, a comment and the end of the line. -/
def endLine? (cs : List Char) : Option (List Char) := do
  match ← skipComment? (skipGap cs) with
  | [] => pure []
  | rest => newline? rest

/-- The text behind blanks, comments and line breaks. -/
def skipLines? : Nat → List Char → Option (List Char)
  | 0, cs => some cs
  | fuel + 1, cs => do
    let rest ← skipComment? (skipGap cs)
    match newline? rest with
    | some next => skipLines? fuel next
    | none => pure rest

def isKeyChar (c : Char) : Bool := c.isAlphanum || c == '_' || c == '-'

def charOf? (n : Nat) : Option Char :=
  if n < 0xD800 || (0xDFFF < n && n ≤ 0x10FFFF) then some (Char.ofNat n) else none

def escape? : List Char → Option (Char × List Char)
  | 'b' :: cs => some (Char.ofNat 8, cs)
  | 't' :: cs => some ('\t', cs)
  | 'e' :: cs => some (Char.ofNat 27, cs)
  | 'n' :: cs => some ('\n', cs)
  | 'f' :: cs => some (Char.ofNat 12, cs)
  | 'r' :: cs => some ('\r', cs)
  | '"' :: cs => some ('"', cs)
  | '\\' :: cs => some ('\\', cs)
  | 'x' :: cs => numbered 2 cs
  | 'u' :: cs => numbered 4 cs
  | 'U' :: cs => numbered 8 cs
  | _ => none
where
  /-- Reads a number with some hexadecimal digits. -/
  numbered (n : Nat) (cs : List Char) : Option (Char × List Char) := do
    if (cs.take n).length < n then none
    pure (← charOf? (← ofHex? (cs.take n)), cs.drop n)

def text? (quote : Char) : Nat → List Char → Option (List Char × List Char)
  | 0, _ => none
  | _, [] => none
  | fuel + 1, c :: cs =>
    if c == quote then some ([], cs)
    else if c == '\\' && quote == '"' then do
      let (c, rest) ← escape? cs
      let (body, rest) ← text? quote fuel rest
      pure (c :: body, rest)
    else if isAllowed c then (text? quote fuel cs).map fun (body, rest) => (c :: body, rest)
    else none

/-- Reads a text of several lines up to its three closing quotes, in front of which two more may stand. -/
def longText? (quote : Char) : Nat → List Char → Option (List Char × List Char)
  | 0, _ => none
  | _, [] => none
  | fuel + 1, c :: cs =>
    if c == quote then
      let quotes := c :: cs.takeWhile (· == quote)
      let rest := cs.dropWhile (· == quote)
      if quotes.length > 5 then none
      else if quotes.length ≥ 3 then some (quotes.drop 3, rest)
      else (longText? quote fuel rest).map fun (body, rest) => (quotes ++ body, rest)
    else if c == '\\' && quote == '"' then
      match newline? (skipGap cs) with
      | some rest =>
        longText? quote fuel (rest.dropWhile fun x => isGap x || x == '\n' || x == '\r')
      | none => do
        let (c, rest) ← escape? cs
        let (body, rest) ← longText? quote fuel rest
        pure (c :: body, rest)
    else match newline? (c :: cs) with
      | some rest => (longText? quote fuel rest).map fun (body, rest) => ('\n' :: body, rest)
      | none =>
        if isAllowed c then (longText? quote fuel cs).map fun (body, rest) => (c :: body, rest) else none

def quoted? (quote : Char) (cs : List Char) : Option (String × List Char) :=
  let fuel := cs.length + 1
  let found : Option (List Char × List Char) := match cs with
    | a :: b :: c :: rest =>
      if a == quote && b == quote && c == quote then longText? quote fuel ((newline? rest).getD rest)
      else text? quote fuel (b :: c :: rest)
    | _ :: rest => text? quote fuel rest
    | [] => none
  found.map fun (body, rest) => (String.ofList body, rest)

def keyPart? (cs : List Char) : Option (String × List Char) :=
  match cs with
  | '"' :: rest => (text? '"' (cs.length + 1) rest).map fun (body, rest) => (String.ofList body, rest)
  | '\'' :: rest => (text? '\'' (cs.length + 1) rest).map fun (body, rest) => (String.ofList body, rest)
  | _ =>
    let part := cs.takeWhile isKeyChar
    if part.isEmpty then none else some (String.ofList part, cs.dropWhile isKeyChar)

/-- How deep values can nest, and how many parts a key can have. -/
def maxNesting : Nat := 80

/-- Reads the parts of a key between points. The first value are the parts before the last one. -/
def keyParts? : Nat → List Char → Option (List String × String × List Char)
  | 0, _ => none
  | fuel + 1, cs => do
    let (part, rest) ← keyPart? (skipGap cs)
    match skipGap rest with
    | '.' :: rest =>
      let (path, name, rest) ← keyParts? fuel rest
      pure (part :: path, name, rest)
    | rest => pure ([], part, rest)

/-- Reads a key: the parts before the last one, and the last one. -/
def key? (cs : List Char) : Option (List String × String × List Char) :=
  (keyParts? (cs.length + 1) cs).filter fun (path, _, _) => path.length < maxNesting

/-- Reads digits with single underscores between them. -/
def digits? (isDigit : Char → Bool) (cs : List Char) : Option (List Char × List Char) :=
  let run := cs.takeWhile fun c => isDigit c || c == '_'
  let parts := splitAtChar '_' run
  if parts.any List.isEmpty then none else some (parts.flatten, cs.drop run.length)

def radixInteger? (radix : Nat) (cs : List Char) : Option (Data × List Char) := do
  let value (c : Char) : Option Nat := (hexValue? c).filter (· < radix)
  let (digits, rest) ← digits? (fun c => (value c).isSome) cs
  let n ← digits.foldlM (fun n c => (value c).map (n * radix + ·)) 0
  if n < Nat.pow 2 128 then pure (.integer n, rest) else none

def exponent? (cs : List Char) : Option (Option Int × List Char) :=
  match cs with
  | [] => some (none, cs)
  | c :: rest =>
    if c == 'e' || c == 'E' then do
      let (negative, rest) := Decimal.sign rest
      let (digits, rest) ← digits? Char.isDigit rest
      let n : Int := ofDigits digits
      pure (some (if negative then -n else n), rest)
    else some (none, cs)

def number? (cs : List Char) : Option (Data × List Char) := do
  let (negative, rest) := Decimal.sign cs
  match rest with
  | 'i' :: 'n' :: 'f' :: rest => pure (.float (if negative then -1.0 / 0.0 else 1.0 / 0.0), rest)
  | 'n' :: 'a' :: 'n' :: rest => pure (.float (0.0 / 0.0), rest)
  | _ =>
    let (whole, rest) ← digits? Char.isDigit rest
    if whole.length > 1 && whole.head? == some '0' then none
    let (fraction, rest) ← match rest with
      | '.' :: more => do
        let (fraction, rest) ← digits? Char.isDigit more
        pure (some fraction, rest)
      | _ => pure (none, rest)
    let (exponent, rest) ← exponent? rest
    match fraction, exponent with
    | none, none =>
      let n : Int := ofDigits whole
      let value := if negative then -n else n
      if -(Nat.pow 2 127 : Nat) ≤ value && value < (Nat.pow 2 128 : Nat) then pure (.integer value, rest)
      else none
    | _, _ =>
      let fraction := fraction.getD []
      let value := Decimal.toFloat ⟨negative, whole ++ fraction, exponent.getD 0 - (fraction.length : Int)⟩
      if value.isInf then none else pure (.float value, rest)

/-- Reads two digits up to a greatest number. -/
def two? (least most : Nat) (cs : List Char) : Option (List Char) :=
  match cs with
  | a :: b :: rest =>
    if a.isDigit && b.isDigit && least ≤ ofDigits [a, b] && ofDigits [a, b] ≤ most then some rest else none
  | _ => none

def daysIn (year month : Nat) : Nat :=
  if month = 2 then if year % 4 = 0 && (year % 100 != 0 || year % 400 = 0) then 29 else 28
  else if [4, 6, 9, 11].contains month then 30
  else 31

def date? (cs : List Char) : Option (List Char) := do
  let year := cs.take 4
  if !(year.length = 4 && year.all Char.isDigit) then none
  let month := (cs.drop 5).take 2
  let rest ← two? 1 12 (← dropPrefix? ['-'] (cs.drop 4))
  two? 1 (daysIn (ofDigits year) (ofDigits month)) (← dropPrefix? ['-'] rest)

def seconds? (cs : List Char) : Option (List Char) :=
  match cs with
  | ':' :: rest => do
    match ← two? 0 60 rest with
    | '.' :: more =>
      let digits := more.takeWhile Char.isDigit
      if digits.isEmpty then none else pure (more.drop digits.length)
    | rest => pure rest
  | _ => some cs

def time? (cs : List Char) : Option (List Char) := do
  seconds? (← two? 0 59 (← dropPrefix? [':'] (← two? 0 23 cs)))

def offset? (cs : List Char) : Option (List Char) :=
  match cs with
  | 'Z' :: rest => some rest
  | 'z' :: rest => some rest
  | c :: rest =>
    if c == '+' || c == '-' then do two? 0 59 (← dropPrefix? [':'] (← two? 0 23 rest)) else some cs
  | [] => some cs

def dateKey : String := "$moment"

/-- Reads a date, a time, or both. -/
def moment? (cs : List Char) : Option (Data × List Char) := do
  let rest ← match date? cs with
    | some rest => match rest with
      | c :: more =>
        if c == 'T' || c == 't' || (c == ' ' && more.head?.any Char.isDigit) then offset? (← time? more)
        else pure rest
      | [] => pure rest
    | none => time? cs
  pure (.map [(dateKey, .text (String.ofList (cs.take (cs.length - rest.length))))], rest)

/-- The text looks like a date or a time. -/
def isMoment (cs : List Char) : Bool :=
  let digits := cs.takeWhile Char.isDigit
  (digits.length = 4 && (cs.drop 4).head? == some '-') || (digits.length = 2 && (cs.drop 2).head? == some ':')

mutual
def value? (depth : Nat) : Nat → List Char → Option (Data × List Char)
  | 0, _ => none
  | fuel + 1, cs => match cs with
    | '"' :: _ => (quoted? '"' cs).map fun (s, rest) => (.text s, rest)
    | '\'' :: _ => (quoted? '\'' cs).map fun (s, rest) => (.text s, rest)
    | 't' :: 'r' :: 'u' :: 'e' :: rest => some (.bool true, rest)
    | 'f' :: 'a' :: 'l' :: 's' :: 'e' :: rest => some (.bool false, rest)
    | '[' :: rest =>
      if depth = 0 then none
      else (items? (depth - 1) fuel rest).map fun (items, rest) => (.list items, rest)
    | '\x7b' :: rest =>
      if depth = 0 then none
      else (pairs? (depth - 1) fuel [] rest).map fun (slots, rest) => (.map (ofSlots slots), rest)
    | '0' :: 'x' :: rest => radixInteger? 16 rest
    | '0' :: 'o' :: rest => radixInteger? 8 rest
    | '0' :: 'b' :: rest => radixInteger? 2 rest
    | _ => if isMoment cs then moment? cs else number? cs
def items? (depth : Nat) : Nat → List Char → Option (List Data × List Char)
  | 0, _ => none
  | fuel + 1, cs => do
    match ← skipLines? (cs.length + 1) cs with
    | ']' :: rest => pure ([], rest)
    | rest =>
      let (item, rest) ← value? depth fuel rest
      match ← skipLines? (rest.length + 1) rest with
      | ',' :: rest =>
        let (items, rest) ← items? depth fuel rest
        pure (item :: items, rest)
      | ']' :: rest => pure ([item], rest)
      | _ => none
/-- Reads the keys and values of a table between braces up to the closing one. Lines can end on both sides of an
equals sign. -/
def pairs? (depth : Nat) : Nat → Slots → List Char → Option (Slots × List Char)
  | 0, _, _ => none
  | fuel + 1, slots, cs => do
    match ← skipLines? (cs.length + 1) cs with
    | '\x7d' :: rest => pure (slots, rest)
    | cs =>
      let (path, name, rest) ← key? cs
      let rest ← dropPrefix? ['='] (← skipLines? (rest.length + 1) rest)
      let (d, rest) ← value? depth fuel (← skipLines? (rest.length + 1) rest)
      let slots ← Slots.define slots path name d false
      match ← skipLines? (rest.length + 1) rest with
      | ',' :: rest => pairs? depth fuel slots rest
      | '\x7d' :: rest => pure (slots, rest)
      | _ => none
end

/-- A file that is being read: what is defined, and the header of the lines that follow. -/
structure Reader where
  slots : Slots := []
  header : List String := []

/-- Reads a line behind the blanks in front of it. -/
def line? (r : Reader) (cs : List Char) : Option (Reader × List Char) := do
  match cs with
  | '[' :: '[' :: rest =>
    let (path, name, rest) ← key? rest
    let slots ← r.slots.addTable path name
    pure (⟨slots, path ++ [name]⟩, ← endLine? (← dropPrefix? [']', ']'] rest))
  | '[' :: rest =>
    let (path, name, rest) ← key? rest
    let slots ← r.slots.openTable path name
    pure (⟨slots, path ++ [name]⟩, ← endLine? (← dropPrefix? [']'] rest))
  | _ =>
    let (path, name, rest) ← key? cs
    let (d, rest) ← value? maxNesting (2 * cs.length + 2) (skipGap (← dropPrefix? ['='] rest))
    let slots ← r.slots.defineIn r.header path name d
    pure ({ r with slots }, ← endLine? rest)

def lines? : Nat → Reader → List Char → Option Reader
  | 0, r, _ => some r
  | fuel + 1, r, cs => do
    match ← skipLines? (cs.length + 1) cs with
    | [] => pure r
    | rest =>
      let (r, rest) ← line? r rest
      lines? fuel r rest

end Toml

/-- Reads a TOML text. A byte order mark in front is not part of it. -/
def ofToml? (cs : List Char) : Option Data :=
  let body := if cs.head?.any (·.toNat == 0xFEFF) then cs.drop 1 else cs
  (Toml.lines? (body.length + 1) {} body).map fun r => .map (ofSlots r.slots)

end PipelineLint.Data
