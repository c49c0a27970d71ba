import PipelineLint.Concrete.Schema.Rule
import PipelineLint.Schema.Basic

/-! # What is violated

The violations of a rule by data, place by place. `Rule.compile` makes a schema of data that describes one.
-/

namespace PipelineLint.Schema.Rule

open Data

/-- Texts with a word between the last two and commas between the others. -/
def alternatives : List String → String
  | [] => ""
  | [last] => last
  | [before, last] => before ++ " or " ++ last
  | first :: rest => first ++ ", " ++ alternatives rest

/-- The values to choose from; of more than three only the first two are named. -/
def choices (values : List Data) : String :=
  let texts := values.map compact
  if texts.length ≤ 3 then alternatives texts
  else ", ".intercalate (texts.take 2) ++ " or " ++ toString (texts.length - 2) ++ " other candidates"

/-- What is said about data that is of none of some types. -/
def typeMessage (d : Data) (names : List String) : String :=
  let types := ", ".intercalate (names.map quote)
  compact d ++ (if names.length = 1 then " is not of type " else " is not of types ") ++ types

/-- What is said about names that a mapping must not have. -/
def closedMessage (unexpected : List String) : String :=
  let names := ", ".intercalate (unexpected.map fun name => "'" ++ name ++ "'")
  "Additional properties are not allowed (" ++ names ++
    (if unexpected.length = 1 then " was unexpected)" else " were unexpected)")

def size? (unit : Unit) : Data → Option Nat
  | .text s => if unit = .characters then some s.length else none
  | .list parts => if unit = .items then some parts.length else none
  | .map entries => if unit = .properties then some entries.length else none
  | _ => none

def sized (unit : Unit) (n : Nat) : String :=
  toString n ++ match unit with
    | .characters => if n = 1 then " character" else " characters"
    | .items => if n = 1 then " item" else " items"
    | .properties => if n = 1 then " property" else " properties"

def sizeMessage (unit : Unit) (d : Data) (less : Bool) (bound : Nat) : String :=
  let comparison := match unit, less with
    | .characters, true => " is shorter than "
    | .characters, false => " is longer than "
    | _, true => " has less than "
    | _, false => " has more than "
  compact d ++ comparison ++ sized unit bound

def boundViolation (place : List String) (d bound : Data) (meets : Int × Nat → Int × Nat → Bool)
    (comparison : String) : List Violation :=
  match quotient? d, quotient? bound with
  | some n, some limit =>
    if meets n limit then [] else [⟨pointer place, compact d ++ comparison ++ compact bound⟩]
  | _, _ => []

mutual
def violationsAt (place : List String) (d : Data) : Rule → List Violation
  | .always true => []
  | .always false => [⟨pointer place, "False schema does not allow " ++ compact d⟩]
  | .ofType draft names =>
    if names.any (isOfType draft d) then [] else [⟨pointer place, typeMessage d names⟩]
  | .oneOf values =>
    if values.any (same d) then []
    else [⟨pointer place, compact d ++ " is not one of " ++ choices values⟩]
  | .exactly value =>
    if same d value then [] else [⟨pointer place, compact value ++ " was expected"⟩]
  | .required names => match d with
    | .map entries => (names.filter fun name => (lookup? entries name).isNone).map fun name =>
        ⟨pointer place, quote name ++ " is a required property"⟩
    | _ => []
  | .atLeast bound =>
    boundViolation place d bound (fun n least => !less n least) " is less than the minimum of "
  | .atMost bound =>
    boundViolation place d bound (fun n most => !less most n) " is greater than the maximum of "
  | .moreThan bound =>
    boundViolation place d bound (fun n least => less least n) " is less than or equal to the minimum of "
  | .lessThan bound =>
    boundViolation place d bound less " is greater than or equal to the maximum of "
  | .sizeAtLeast unit bound => match size? unit d with
    | some n => if n < bound then [⟨pointer place, sizeMessage unit d true bound⟩] else []
    | none => []
  | .sizeAtMost unit bound => match size? unit d with
    | some n => if bound < n then [⟨pointer place, sizeMessage unit d false bound⟩] else []
    | none => []
  | .distinct => match d with
    | .list parts =>
      if Draft.areDistinct parts then []
      else [⟨pointer place, compact d ++ " has non-unique elements"⟩]
    | _ => []
  | .properties rules => match d with
    | .map entries => propertyViolations place entries rules
    | _ => []
  | .others known rule => match d with
    | .map entries => entries.flatMap fun (name, part) =>
        if known.contains name then [] else violationsAt (place ++ [name]) part rule
    | _ => []
  | .closed known => match d with
    | .map entries =>
      let unexpected := (entries.map (·.1)).filter fun name => !known.contains name
      if unexpected.isEmpty then [] else [⟨pointer place, closedMessage unexpected⟩]
    | _ => []
  | .empty => match d with
    | .map ((_, first) :: _) => [⟨pointer place, "False schema does not allow " ++ compact first⟩]
    | _ => []
  | .items rule => match d with
    | .list parts => (List.range parts.length).zip parts |>.flatMap fun (index, part) =>
        violationsAt (place ++ [toString index]) part rule
    | _ => []
  | .all rules => allViolations place d rules
  | .any rules =>
    if countHolding place d rules = 0 then
      [⟨pointer place, compact d ++ " is not valid under any of the schemas listed in the 'anyOf' keyword"⟩]
    else []
  | .one rules => match countHolding place d rules with
    | 0 => [⟨pointer place,
        compact d ++ " is not valid under any of the schemas listed in the 'oneOf' keyword"⟩]
    | 1 => []
    | _ => [⟨pointer place,
        compact d ++ " is valid under more than one of the schemas listed in the 'oneOf' keyword"⟩]
  | .neither written rule =>
    if (violationsAt place d rule).isEmpty then
      [⟨pointer place, compact written ++ " is not allowed for " ++ compact d⟩]
    else []
def allViolations (place : List String) (d : Data) : List Rule → List Violation
  | [] => []
  | rule :: rules => violationsAt place d rule ++ allViolations place d rules
def countHolding (place : List String) (d : Data) : List Rule → Nat
  | [] => 0
  | rule :: rules =>
    (if (violationsAt place d rule).isEmpty then 1 else 0) + countHolding place d rules
def propertyViolations (place : List String) (entries : List (String × Data)) :
    List (String × Rule) → List Violation
  | [] => []
  | (name, rule) :: rules =>
    (match lookup? entries name with
      | some part => violationsAt (place ++ [name]) part rule
      | none => []) ++ propertyViolations place entries rules
end

def compile (d : Data) : Option Schema :=
  (ofData? d).map fun rule => ⟨fun d => violationsAt [] d rule⟩

end PipelineLint.Schema.Rule
