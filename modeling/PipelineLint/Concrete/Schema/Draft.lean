import PipelineLint.Data.Value

/-! # Drafts of the schema language

The language of schemas has several drafts. Each knows a set of keywords and says of what shape the value of
a keyword has to be; other keywords are free. `Draft.accepts` tells whether data is well formed as a schema of
a draft.
-/

namespace PipelineLint.Schema

open Data

inductive Draft where
  | draft4 | draft6 | draft7 | draft2019 | draft2020
  deriving DecidableEq, Repr, Inhabited

inductive Shape where
  | anything
  | text
  /-- A text that may be the name of a place in a schema. -/
  | anchor
  /-- A text without a number sign except at its end. -/
  | identifier
  | truth
  | number
  | positiveNumber
  | count
  | list
  /-- A list of distinct values that is not empty. -/
  | choices
  | texts
  | someTexts
  /-- The name of a type, or a list of distinct names that is not empty. -/
  | types
  | schema
  | schemaOrTruth
  | schemas
  | schemaOrSchemas
  | schemaOrTexts
  | mapOf (values : Shape)
  deriving DecidableEq, Repr, Inhabited

namespace Draft

def identifiers : List (String × Draft) :=
  [("http://json-schema.org/draft-04/schema", .draft4), ("http://json-schema.org/draft-06/schema", .draft6),
   ("http://json-schema.org/draft-07/schema", .draft7),
   ("https://json-schema.org/draft/2019-09/schema", .draft2019),
   ("https://json-schema.org/draft/2020-12/schema", .draft2020)]

def ofSchema? : Data → Option Draft
  | .map entries => match lookup? entries "$schema" with
    | some (.text name) =>
      let bare := String.ofList ((name.toList.reverse.dropWhile (· == '#')).reverse)
      (identifiers.find? (·.1 == bare)).map (·.2)
    | _ => some .draft2020
  | _ => some .draft2020

def age : Draft → Nat
  | .draft4 => 4
  | .draft6 => 6
  | .draft7 => 7
  | .draft2019 => 8
  | .draft2020 => 9

def common : List (String × Shape) :=
  [("$schema", .text), ("title", .text), ("description", .text), ("multipleOf", .positiveNumber),
   ("maximum", .number), ("minimum", .number), ("maxLength", .count), ("minLength", .count),
   ("pattern", .text), ("maxItems", .count), ("minItems", .count), ("uniqueItems", .truth),
   ("maxProperties", .count), ("minProperties", .count), ("definitions", .mapOf .schema),
   ("properties", .mapOf .schema), ("patternProperties", .mapOf .schema),
   ("dependencies", .mapOf .schemaOrTexts), ("type", .types), ("format", .text), ("allOf", .schemas),
   ("anyOf", .schemas), ("oneOf", .schemas), ("not", .schema)]

/-- The shapes of keywords that were added by the draft of an age or changed by it; later ones come
first. -/
def changes : List (Nat × String × Shape) :=
  [(9, "$recursiveAnchor", .anchor), (9, "$anchor", .anchor), (9, "$dynamicRef", .text),
   (9, "$dynamicAnchor", .anchor), (9, "additionalItems", .anything), (9, "items", .schema),
   (9, "prefixItems", .schemas),
   (8, "$id", .identifier), (8, "$anchor", .anchor), (8, "$recursiveRef", .text),
   (8, "$recursiveAnchor", .truth), (8, "$vocabulary", .mapOf .truth), (8, "$defs", .mapOf .schema),
   (8, "unevaluatedItems", .schema), (8, "unevaluatedProperties", .schema),
   (8, "dependentSchemas", .mapOf .schema), (8, "maxContains", .count), (8, "minContains", .count),
   (8, "dependentRequired", .mapOf .texts), (8, "deprecated", .truth), (8, "contentSchema", .schema),
   (7, "$comment", .text), (7, "readOnly", .truth), (7, "writeOnly", .truth), (7, "contentMediaType", .text),
   (7, "contentEncoding", .text), (7, "if", .schema), (7, "then", .schema), (7, "else", .schema),
   (7, "enum", .list),
   (6, "$id", .text), (6, "$ref", .text), (6, "examples", .list), (6, "contains", .schema),
   (6, "propertyNames", .schema), (6, "exclusiveMaximum", .number), (6, "exclusiveMinimum", .number),
   (6, "required", .texts), (6, "additionalItems", .schema), (6, "additionalProperties", .schema),
   (6, "id", .anything),
   (4, "id", .text), (4, "exclusiveMaximum", .truth), (4, "exclusiveMinimum", .truth),
   (4, "required", .someTexts), (4, "additionalItems", .schemaOrTruth),
   (4, "additionalProperties", .schemaOrTruth), (4, "items", .schemaOrSchemas), (4, "enum", .choices)]

def shape (draft : Draft) (keyword : String) : Shape :=
  match common.find? (·.1 == keyword) with
  | some (_, shape) => shape
  | none => match changes.find? fun (age, name, _) => age ≤ draft.age && name == keyword with
    | some (_, _, shape) => shape
    | none => .anything

def typeNames : List String :=
  ["array", "boolean", "integer", "null", "number", "object", "string"]

def areDistinct : List Data → Bool
  | [] => true
  | d :: rest => !rest.any (same d) && areDistinct rest

def areTexts (ds : List Data) : Bool :=
  areDistinct ds && ds.all fun d => match d with
    | .text _ => true
    | _ => false

def areTypes (ds : List Data) : Bool :=
  ds.all fun d => match d with
    | .text name => typeNames.contains name
    | _ => false

/-- A number is a whole one. Only an integer is in the first draft. -/
def isWhole (draft : Draft) : Data → Bool
  | .integer _ => true
  | .float f => draft != .draft4 && isIntegral (quotient f)
  | _ => false

def fitsText (shape : Shape) (name : String) : Bool :=
  match shape with
  | .text => true
  | .identifier => !name.toList.dropLast.contains '#'
  | .anchor => match name.toList with
    | [] => false
    | c :: cs => (c.isAlpha || c == '_') && cs.all fun c => c.isAlphanum || "-._".toList.contains c
  | .types => typeNames.contains name
  | _ => false

def fitsNumber (draft : Draft) (shape : Shape) (d : Data) : Bool :=
  match shape, quotient? d with
  | .number, some _ => true
  | .positiveNumber, some n => 0 < n.1
  | .count, some n => isWhole draft d && 0 ≤ n.1
  | _, _ => false

mutual
def fits (draft : Draft) (shape : Shape) : Data → Bool
  | .null => shape == .anything
  | .bool _ =>
    shape == .anything || shape == .truth || shape == .schemaOrTruth ||
      (draft != .draft4 && [Shape.schema, .schemaOrSchemas, .schemaOrTexts].contains shape)
  | .integer n => shape == .anything || fitsNumber draft shape (.integer n)
  | .float f => shape == .anything || fitsNumber draft shape (.float f)
  | .text name => shape == .anything || fitsText shape name
  | .list ds => match shape with
    | .anything => true
    | .list => true
    | .choices => !ds.isEmpty && areDistinct ds
    | .texts => areTexts ds
    | .schemaOrTexts => areTexts ds
    | .someTexts => !ds.isEmpty && areTexts ds
    | .types => !ds.isEmpty && areTypes ds && areDistinct ds
    | .schemas => !ds.isEmpty && allFit draft ds
    | .schemaOrSchemas => !ds.isEmpty && allFit draft ds
    | _ => false
  | .map entries => match shape with
    | .anything => true
    | .mapOf values => entriesFit draft (fun _ => values) entries
    | .schema => entriesFit draft draft.shape entries
    | .schemaOrTruth => entriesFit draft draft.shape entries
    | .schemaOrSchemas => entriesFit draft draft.shape entries
    | .schemaOrTexts => entriesFit draft draft.shape entries
    | _ => false
def allFit (draft : Draft) : List Data → Bool
  | [] => true
  | d :: ds => fits draft .schema d && allFit draft ds
def entriesFit (draft : Draft) (shape : String → Shape) : List (String × Data) → Bool
  | [] => true
  | (name, d) :: entries => fits draft (shape name) d && entriesFit draft shape entries
end

def accepts (draft : Draft) (d : Data) : Bool := fits draft .schema d

end Draft

end PipelineLint.Schema
