import PipelineLint.Concrete.Loader.Tree
import PipelineLint.Load.Value
import PipelineLint.Text.Decimal
import PipelineLint.Text.Hidden

/-! # Reading values

A node is read into the value that it stands for: aliases are followed and tags are looked at. Aliases can lead back
to the nodes around them; the depth of values and the number of aliases that are followed are limited, so that every
document is read in a bounded number of steps.

What a plain scalar stands for: nothing, a truth value, an integer, a finite number, infinity or "not a number".
Everything else is text. Digits behind a zero are text, and so is a number beyond all doubles.
-/

namespace PipelineLint.Load

namespace Plain

open Text

def isNull (cs : List Char) : Bool := ["null", "Null", "NULL", "~"].contains (String.ofList cs)

def bool? (cs : List Char) : Option Bool :=
  let word := String.ofList cs
  if ["true", "True", "TRUE"].contains word then some true
  else if ["false", "False", "FALSE"].contains word then some false
  else none

def dropSign : List Char → List Char
  | '-' :: cs => cs
  | '+' :: cs => cs
  | cs => cs

def hasExtraZero (cs : List Char) : Bool :=
  let digits := dropSign cs
  digits.head? == some '0' && digits.length > 1 && digits.all Char.isDigit

def digit? (radix : Nat) (c : Char) : Option Nat := (hexValue? c).filter (· < radix)

def digits? (radix : Nat) (cs : List Char) : Option Nat :=
  if cs.isEmpty then none else cs.foldlM (fun n c => (digit? radix c).map (n * radix + ·)) 0

def radix : List Char → Nat × List Char
  | '0' :: 'x' :: cs => (16, cs)
  | '0' :: 'o' :: cs => (8, cs)
  | '0' :: 'b' :: cs => (2, cs)
  | cs => (10, cs)

/-- The numbers that can be told from text, below zero and above. -/
def isIntegerSize (n : Int) : Bool := -(Nat.pow 2 127 : Nat) ≤ n && n < (Nat.pow 2 128 : Nat)

def integer? (cs : List Char) : Option Int := do
  if hasExtraZero cs then none
  let (isNegative, cs) := match cs with
    | '-' :: rest => (true, rest)
    | '+' :: rest => (false, rest)
    | rest => (false, rest)
  let (radix, digits) := radix cs
  let n ← digits? radix digits
  let value : Int := if isNegative then -(n : Int) else n
  if isIntegerSize value then some value else none

/-- Reads a number that need not be finite. -/
def float? (cs : List Char) : Option Float :=
  let word := String.ofList cs
  let positive := match cs with
    | '+' :: rest => rest
    | rest => rest
  if [".inf", ".Inf", ".INF"].contains (String.ofList positive) then some (1.0 / 0.0)
  else if ["-.inf", "-.Inf", "-.INF"].contains word then some (-1.0 / 0.0)
  else if [".nan", ".NaN", ".NAN"].contains word then some (0.0 / 0.0)
  else if cs.head? == some '+' && (positive.head? == some '+' || positive.head? == some '-') then none
  else ((Decimal.read? positive).map Decimal.toFloat).filter (·.isFinite)

end Plain

inductive ValueProblem where
  | notOfTag (text : List Char) (expected : String)
  | longInteger (value : Int)
  | duplicateKey (key : Value)
  deriving Inhabited

namespace ValueProblem

def keyText : Value → String
  | .null => "with null key"
  | .bool value => "with key " ++ "\x60" ++ (if value then "true" else "false") ++ "\x60"
  | .integer value => "with key " ++ toString value
  | .float value =>
    "with key " ++ (if value.isNaN then ".nan" else if value.isInf then if value < 0 then "-.inf" else ".inf"
      else Data.floatTextWith "" value)
  | .text value => "with key " ++ String.ofList (Text.shown value)
  | _ => "in YAML map"

def text : ValueProblem → String
  | notOfTag text expected =>
    "invalid value: string " ++ String.ofList (Text.shown text) ++ ", expected " ++ expected
  | longInteger value =>
    "invalid type: integer " ++ "\x60" ++ toString value ++ "\x60" ++ " as " ++
      (if value < 0 then "i128" else "u128") ++ ", expected any YAML value"
  | duplicateKey key => "duplicate entry " ++ keyText key

end ValueProblem

inductive ValueError where
  | document (fault : DocumentFault)
  | tooDeep (mark : Mark)
  | tooManyAliases
  | invalid (path : String) (mark : Mark) (problem : ValueProblem)
  deriving Inhabited

namespace Loaded

def aliasLimit (d : Loaded) : Nat := d.size * 100

def cutError (d : Loaded) : ValueError :=
  .document (d.fault.getD (.text ⟨.cannotStart, {}⟩))

end Loaded

/-- The way to a part: the names and the numbers of items. The way to the whole document is a point. -/
structure Way where
  text : String
  isRoot : Bool := false
  deriving DecidableEq, Repr, Inhabited

namespace Way

def root : Way := ⟨".", true⟩

def item (w : Way) (n : Nat) : Way := ⟨w.text ++ "[" ++ toString n ++ "]", false⟩

/-- The way to the value of a key. Keys that are no scalars are not named. -/
def entry (w : Way) (key : Option (List Char)) : Way :=
  ⟨(if w.isRoot then "" else w.text ++ ".") ++ (match key with
    | some key => String.ofList key
    | none => "?"), false⟩

end Way

/-- Reads a node at a way. The number is that of the aliases followed, before and after. -/
abbrev NodeReader := Way → Tree → Nat → Except ValueError (Value × Nat)

def coreTag (word : String) : List Char := ("tag:yaml.org,2002:" ++ word).toList

def integerValue (n : Int) : Except ValueProblem Value :=
  if -(Nat.pow 2 63 : Nat) ≤ n && n < (Nat.pow 2 64 : Nat) then .ok (.integer n) else .error (.longInteger n)

def plainValue (text : List Char) : Except ValueProblem Value :=
  if text.isEmpty || Plain.isNull text then .ok .null
  else match Plain.bool? text with
    | some value => .ok (.bool value)
    | none => match Plain.integer? text with
      | some n => integerValue n
      | none => match if Plain.hasExtraZero text then none else Plain.float? text with
        | some value => .ok (.float value)
        | none => .ok (.text text)

def scalarValue (tag : Option (List Char)) (text : List Char) (isPlain : Bool) : Except ValueProblem Value :=
  match tag with
  | none => if isPlain then plainValue text else .ok (.text text)
  | some tag =>
    if tag == coreTag "bool" then match Plain.bool? text with
      | some value => .ok (.bool value)
      | none => .error (.notOfTag text "a boolean")
    else if tag == coreTag "int" then match Plain.integer? text with
      | some n => integerValue n
      | none => .error (.notOfTag text "an integer")
    else if tag == coreTag "float" then match Plain.float? text with
      | some value => .ok (.float value)
      | none => .error (.notOfTag text "a float")
    else if tag == coreTag "null" then
      if Plain.isNull text then .ok .null else .error (.notOfTag text "null")
    else .ok (.text text)

/-- The tag of a node that is part of its value: one that starts with an exclamation mark, which is no part of its
name unless nothing follows it. -/
def ownTag? (tag : Option (List Char)) : Option (List Char) :=
  match tag with
  | some ['!'] => some ['!']
  | some ('!' :: name) => some name
  | _ => none

/-- The name of a tag without an exclamation mark in front. -/
def bareTag (name : List Char) : List Char :=
  match name with
  | ['!'] => name
  | '!' :: rest => rest
  | _ => name

def keyName? : Tree → Option (List Char)
  | .scalar _ _ _ text _ => some text
  | _ => none

def readItems (read : NodeReader) (way : Way) : Nat → List Tree → Nat → Except ValueError (List Value × Nat)
  | _, [], followed => .ok ([], followed)
  | n, t :: ts, followed => do
    let (value, followed) ← read (way.item n) t followed
    let (values, followed) ← readItems read way (n + 1) ts followed
    pure (value :: values, followed)

/-- Reads the keys and values of a mapping. `before` are the entries before them, the last one first. -/
def readEntries (read : NodeReader) (way : Way) (mark : Mark) :
    List (Value × Value) → List Tree → Nat → Except ValueError (List (Value × Value) × Nat)
  | before, [], followed => .ok (before.reverse, followed)
  | before, [key], followed => do
    let (_, followed) ← read way key followed
    pure (before.reverse, followed)
  | before, key :: value :: parts, followed => do
    let (k, followed) ← read way key followed
    if (Value.lookup? k before).isSome then throw (.invalid way.text mark (.duplicateKey k))
    let (v, followed) ← read (way.entry (keyName? key)) value followed
    readEntries read way mark ((k, v) :: before) parts followed

/-- Reads a node that is no alias, apart from a tag of its own; `isTagged` says that it has one. `below` reads the nodes
in it, if values may nest any deeper. -/
def readContent (d : Loaded) (below : Option NodeReader) (way : Way) (isTagged : Bool) (t : Tree)
    (followed : Nat) : Except ValueError (Value × Nat) :=
  match t with
  | .scalar mark _ tag text isPlain =>
    match scalarValue (if isTagged then none else tag) text isPlain with
    | .ok value => .ok (value, followed)
    | .error problem => .error (.invalid way.text mark problem)
  | .sequence mark _ _ items => match below with
    | none => .error (.tooDeep mark)
    | some read => (readItems read way 0 items followed).map fun (values, n) => (.list values, n)
  | .mapping mark _ _ parts => match below with
    | none => .error (.tooDeep mark)
    | some read =>
      (readEntries read way mark [] parts followed).map fun (entries, n) => (.map entries, n)
  | .alias _ => .error d.cutError
  | .cut => .error d.cutError

def Tree.tag? : Tree → Option (List Char)
  | .scalar _ _ tag _ _ => tag
  | .sequence _ _ tag _ => tag
  | .mapping _ _ tag _ => tag
  | _ => none

def readTagged (d : Loaded) (below : Option NodeReader) (way : Way) (t : Tree) (followed : Nat) :
    Except ValueError (Value × Nat) :=
  match ownTag? t.tag? with
  | none => readContent d below way false t followed
  | some name =>
    (readContent d below way true t followed).map fun (value, n) => (.tagged (bareTag name) value, n)

def readNodeWith (d : Loaded) (below : Option NodeReader) : NodeReader := fun way t followed =>
  match t with
  | .alias number =>
    if followed + 1 > d.aliasLimit then .error .tooManyAliases
    else match d.root.find? number with
      | some target => readTagged d below way target (followed + 1)
      | none => .error d.cutError
  | t => readTagged d below way t followed

def reader (d : Loaded) : Nat → NodeReader
  | 0 => readNodeWith d none
  | depth + 1 => readNodeWith d (some (reader d depth))

def depthLimit : Nat := 128

def Loaded.value (d : Loaded) : Except ValueError Value :=
  if d.isEmpty then .ok .null
  else (reader d depthLimit .root d.root 0).map (·.1)

end PipelineLint.Load
