import PipelineLint.Load.Merge

/-! # Plain data from YAML

A text is decoded in three steps: a library reads its value, applies the merge keys in it, and turns the value into
plain data.
-/

namespace PipelineLint.Load

/-- A key that cannot become a text. -/
inductive KeyProblem where
  | notText
  | notFinite
  deriving DecidableEq, Repr, Inhabited

namespace KeyProblem

def text : KeyProblem → String
  | notText => "key must be a string"
  | notFinite => "float key must be finite (got NaN or +/-inf)"

end KeyProblem

namespace Value

def keyText? : Value → Except KeyProblem String
  | .text cs => .ok (String.ofList cs)
  | .integer n => .ok (toString n)
  | .bool b => .ok (if b then "true" else "false")
  | .float f => if f.isFinite then .ok (Data.floatText f) else .error .notFinite
  | _ => .error .notText

mutual
/-- The value as plain data. A tag becomes the key of a mapping. -/
def toData : Value → Except KeyProblem Data
  | .null => .ok .null
  | .bool b => .ok (.bool b)
  | .integer n => .ok (.integer n)
  | .float f => .ok (if f.isFinite then .float f else .null)
  | .text cs => .ok (.text (String.ofList cs))
  | .list items => (dataOfItems items).map .list
  | .map entries => (dataOfEntries entries).map fun data => .map (Data.orderEntries data)
  | .tagged tag value => (toData value).map fun data => .map [("!" ++ String.ofList tag, data)]
def dataOfItems : List Value → Except KeyProblem (List Data)
  | [] => .ok []
  | value :: values => do
    let data ← toData value
    pure (data :: (← dataOfItems values))
def dataOfEntries : List (Value × Value) → Except KeyProblem (List (String × Data))
  | [] => .ok []
  | (key, value) :: entries => do
    let name ← keyText? key
    let data ← toData value
    pure ((name, data) :: (← dataOfEntries entries))
end

end Value

/-- Why YAML is not read: what is said about it, and the line where it is known, counted from one. -/
structure YamlError where
  text : String
  line? : Option Nat := none
  deriving DecidableEq, Repr, Inhabited

/-- Why a text is not read as plain data. -/
inductive DecodeError where
  | yaml (error : YamlError)
  /-- The value has no form as plain data. -/
  | json (text : String)
  deriving DecidableEq, Repr, Inhabited

namespace DecodeError

def fullText : DecodeError → String
  | yaml error => error.text
  | json text => text

def message (e : DecodeError) : String :=
  match Text.cut? " at line ".toList e.fullText.toList with
  | some (head, _) => String.ofList head
  | none => e.fullText

def line? : DecodeError → Option Nat
  | yaml error => error.line?
  | json _ => none

end DecodeError

/-- A library that reads YAML. -/
structure Loader where
  /-- The value of the only document of a text, with aliases followed and merge keys as they are written. -/
  load : List Char → Except YamlError Value
  applyMerge : Value → Except YamlError Value
  toData : Value → Except String Data

namespace Loader

def decode (l : Loader) (text : List Char) : Except DecodeError Data := do
  let value ← (l.load text).mapError .yaml
  let merged ← (l.applyMerge value).mapError .yaml
  (l.toData merged).mapError .json

end Loader

end PipelineLint.Load
