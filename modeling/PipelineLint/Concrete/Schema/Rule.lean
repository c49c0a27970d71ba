import PipelineLint.Concrete.Schema.Draft

/-! # Rules

A schema is written as JSON: truth values, and records of keywords that must all hold. `Rule.ofData?` reads a schema
that is well formed in the draft that it names.
-/

namespace PipelineLint.Schema

inductive Unit where
  | characters | items | properties
  deriving DecidableEq, Repr, Inhabited

inductive Rule where
  | always (accepts : Bool)
  | ofType (draft : Draft) (names : List String)
  | oneOf (values : List Data)
  | exactly (value : Data)
  | required (names : List String)
  | atLeast (bound : Data)
  | atMost (bound : Data)
  | moreThan (bound : Data)
  | lessThan (bound : Data)
  | sizeAtLeast (unit : Unit) (bound : Nat)
  | sizeAtMost (unit : Unit) (bound : Nat)
  | distinct
  /-- The values of some names in a mapping meet conditions of their own. -/
  | properties (rules : List (String × Rule))
  /-- The values of all other names in a mapping meet a condition. -/
  | others (known : List String) (rule : Rule)
  | closed (known : List String)
  | empty
  | items (rule : Rule)
  | all (rules : List Rule)
  | any (rules : List Rule)
  | one (rules : List Rule)
  | neither (written : Data) (rule : Rule)
  deriving Inhabited

namespace Rule

open Data

def isOfType (draft : Draft) (d : Data) (name : String) : Bool :=
  match d with
  | .null => name == "null"
  | .bool _ => name == "boolean"
  | .integer _ => name == "integer" || name == "number"
  | .float f => name == "number" || (name == "integer" && draft.isWhole (.float f))
  | .text _ => name == "string"
  | .list _ => name == "array"
  | .map _ => name == "object"

def texts : Data → List String
  | .list parts => parts.filterMap fun part => match part with
    | .text s => some s
    | _ => none
  | _ => []

def types : Data → List String
  | .text name => [name]
  | d => Draft.typeNames.filter (texts d).contains

def countOf (d : Data) : Nat :=
  ((quotient? d).map fun n => (n.1 / n.2).toNat).getD 0

/-- A bound that the number itself does not meet in the oldest draft, if the keyword beside it says so. -/
def isOpen (entries : List (String × Data)) (keyword : String) : Bool :=
  match lookup? entries keyword with
  | some (.bool value) => value
  | _ => false

def simple? (draft : Draft) (siblings : List (String × Data)) (keyword : String) (d : Data) : Option Rule :=
  match keyword, d with
  | "type", d => some (ofType draft (types d))
  | "enum", .list values => some (oneOf values)
  | "const", d => if draft = .draft4 then none else some (exactly d)
  | "required", d => some (required (texts d))
  | "minimum", d => some (if isOpen siblings "exclusiveMinimum" then moreThan d else atLeast d)
  | "maximum", d => some (if isOpen siblings "exclusiveMaximum" then lessThan d else atMost d)
  | "exclusiveMinimum", .bool _ => none
  | "exclusiveMinimum", d => some (moreThan d)
  | "exclusiveMaximum", .bool _ => none
  | "exclusiveMaximum", d => some (lessThan d)
  | "minLength", d => some (sizeAtLeast .characters (countOf d))
  | "maxLength", d => some (sizeAtMost .characters (countOf d))
  | "minItems", d => some (sizeAtLeast .items (countOf d))
  | "maxItems", d => some (sizeAtMost .items (countOf d))
  | "minProperties", d => some (sizeAtLeast .properties (countOf d))
  | "maxProperties", d => some (sizeAtMost .properties (countOf d))
  | "uniqueItems", .bool true => some distinct
  | "additionalProperties", .bool false => match lookup? siblings "properties" with
    | some (.map schemas) => some (closed (schemas.map (·.1)))
    | _ => some empty
  | _, _ => none

def knownNames (siblings : List (String × Data)) : List String :=
  match lookup? siblings "properties" with
  | some (.map schemas) => schemas.map (·.1)
  | _ => []

mutual
/-- Reads a well-formed schema whose mappings are ordered by name. -/
def read (draft : Draft) : Data → Rule
  | .bool accepts => .always accepts
  | .map entries => .all (readKeywords draft entries entries)
  | _ => .always true
/-- Reads keywords, which stand beside `siblings`. Other keywords have no meaning. -/
def readKeywords (draft : Draft) (siblings : List (String × Data)) : List (String × Data) → List Rule
  | [] => []
  | (keyword, d) :: entries =>
    let rule? : Option Rule := match simple? draft siblings keyword d with
      | some rule => some rule
      | none => match keyword, d with
        | "items", .list _ => none
        | "items", d => some (items (read draft d))
        | "properties", .map schemas => some (properties (readNamed draft schemas))
        | "additionalProperties", d => some (others (knownNames siblings) (read draft d))
        | "allOf", .list ds => some (all (readEach draft ds))
        | "anyOf", .list ds => some (any (readEach draft ds))
        | "oneOf", .list ds => some (one (readEach draft ds))
        | "not", d => some (neither d (read draft d))
        | _, _ => none
    rule?.toList ++ readKeywords draft siblings entries
def readNamed (draft : Draft) : List (String × Data) → List (String × Rule)
  | [] => []
  | (name, d) :: entries => (name, read draft d) :: readNamed draft entries
def readEach (draft : Draft) : List Data → List Rule
  | [] => []
  | d :: ds => read draft d :: readEach draft ds
end

def ofData? (d : Data) : Option Rule := do
  let d := d.ordered
  let draft ← Draft.ofSchema? d
  if draft.accepts d then some (read draft d) else none

end Rule

end PipelineLint.Schema
