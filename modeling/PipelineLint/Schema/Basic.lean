import PipelineLint.Data.Json
import PipelineLint.Files
import PipelineLint.Reference
import PipelineLint.Schema.Violation

/-! # Schemas

A schema finds violations in plain data. The value of `when` is exempt where it is a reference to a parameter, since
its value is only known when the pipeline runs. Schemas are written as JSON and compiled by a library.
-/

namespace PipelineLint

/-- A schema, by the violations that it finds in data, in their order. -/
structure Schema where
  errors : Data → List Schema.Violation

namespace Schema

mutual
/-- The pointers to the values of `when` that are references to parameters. -/
def exemptAt (place : List String) : Data → List String
  | .map entries => exemptEntries place entries
  | .list parts => exemptItems place 0 parts
  | _ => []
/-- The exempt pointers below the entries of a mapping. -/
def exemptEntries (place : List String) : List (String × Data) → List String
  | [] => []
  | (name, part) :: entries =>
    let found := exemptAt (place ++ [name]) part
    (match part with
      | .text value =>
        if name == "when" && Reference.isOnly value then [pointer (place ++ [name])] else []
      | _ => found) ++ exemptEntries place entries
/-- The exempt pointers below the items of a list, the first of which has a number. -/
def exemptItems (place : List String) (index : Nat) : List Data → List String
  | [] => []
  | part :: parts =>
    exemptAt (place ++ [toString index]) part ++ exemptItems place (index + 1) parts
end

def isWithin (part pointer : String) : Bool :=
  match Text.dropPrefix? part.toList pointer.toList with
  | some rest => rest.isEmpty || rest.head? == some '/'
  | none => false

def violations (schema : Schema) (d : Data) : List Violation :=
  let exempt := exemptAt [] d
  (schema.errors d).filter fun v => !exempt.any fun part => isWithin part v.pointer

end Schema

/-- Why a schema cannot be used. -/
inductive SchemaError where
  | unreadable (path cause : String)
  | notJson
  /-- The data is no schema. -/
  | invalid
  deriving DecidableEq, Repr, Inhabited

namespace SchemaError

def message : SchemaError → String
  | unreadable path cause => "cannot read schema " ++ path ++ ": " ++ cause
  | notJson => "schema is not valid JSON"
  | invalid => "invalid schema"

end SchemaError

namespace Schema

variable (compile : Data → Option Schema)

def ofData (d : Data) : Except SchemaError Schema :=
  match compile d with
  | some schema => .ok schema
  | none => .error .invalid

def ofFile (files : Files) (path : String) : Except SchemaError Schema :=
  match files.read path with
  | .error e => .error (.unreadable path e.message)
  | .ok text => match Data.ofJson? text.toList with
    | some d => ofData compile d
    | none => .error .notJson

end Schema

end PipelineLint
