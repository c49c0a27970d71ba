import PipelineLint.Check.Run

/-! # Steps and the values they assign

A step that invokes a command must name one and give each of its parameters a value of the right form.
Values may hold steps again, which are checked in the same way; so checking steps and checking values are one
recursion over the step.
-/

namespace PipelineLint.Check

/-- Text, a listed word or the name of an environment variable: one can stand for the other. -/
def isTextual : ParameterType → Bool
  | .string _ | .enum .. | .envVarName _ => true
  | _ => false

def isCompatible (target source : ParameterType) : Bool :=
  match target, source with
  | .executor _, .string _ => true
  | _, _ => isTextual target && isTextual source || target.word == source.word

/-- The value given to a parameter has the wrong form. -/
def typeMismatch (p : Parameter) (entity : String) (range : Range) : Diagnostic :=
  .error .typeMismatch range
    ("Parameter " ++ p.name ++ " for " ++ entity ++ " must be a " ++ p.type.word)

/-- Finds the parameters that get no value though they have no default. -/
def missing (declared : Parameters) (entity : String) (range : Range) (isAssigned : String → Bool) :
    List Diagnostic :=
  (declared.entries.filter fun (name, p) => !(p.isOptional || isAssigned name)).map fun (name, _) =>
    .error .missingParameter range ("Parameter " ++ name ++ " is required for " ++ entity)

/-- A value is given to a parameter that is not declared. -/
def undeclared (name entity : String) (range : Range) : Diagnostic :=
  .error .undefinedParameter range ("Parameter " ++ name ++ " is not defined in " ++ entity)

def executorName (s : Scope) (name : String) (range : Range) : List Diagnostic :=
  if Reference.hasSubstitution name || s.isFromUnknownOrb name || s.hasExecutor name then []
  else [.error .undefinedExecutor range ("Executor `" ++ name ++ "` does not exist")]

def executorValue (s : Scope) (p : Parameter) (entity : String) (range : Range) :
    Value → List Diagnostic
  | .text name => executorName s name range
  | .map fields => match Assignments.get? fields "name" with
    | some ⟨_, .text name, nameRange, _⟩ => executorName s name nameRange
    | some _ => []
    | none => [.error .missingValue range "Missing executor name"]
  | _ => [typeMismatch p entity range]

def plainValue (s : Scope) (p : Parameter) (entity : String) (range : Range) (v : Value) :
    List Diagnostic :=
  let expect (fits : Bool) : List Diagnostic := if fits then [] else [typeMismatch p entity range]
  match p.type, v with
  | .string _, .text _ => []
  | .string _, _ => expect false
  | .boolean _, .truth _ => []
  | .boolean _, _ => expect false
  | .integer _, .number _ => []
  | .integer _, _ => expect false
  | .envVarName _, .text _ => []
  | .envVarName _, .number _ => []
  | .envVarName _, _ => expect false
  | .enum _ values _, v => match v.asText? with
    | none => expect false
    | some text =>
      if values.contains text then []
      else [.error .invalidValue range ("Parameter " ++ text ++ " is not a valid value for " ++ p.name ++
        ". Expected one of: " ++ ", ".intercalate values)]
  | .executor _, v => executorValue s p entity range v
  | .steps _, _ => []

/-- Checks a value that is a reference: its parameter must have a compatible type. A reference to nothing is
found elsewhere. -/
def referenceValue (s : Scope) (usable : Parameters) (p : Parameter) (entity : String) (range : Range)
    (text : String) : List Diagnostic :=
  match s.referenced? usable text with
  | none => []
  | some target => if isCompatible p.type target.type then [] else [typeMismatch p entity range]

/-- Checks the name of a command in a list of steps given as a value. -/
def stepName (s : Scope) (name : String) (range : Range) : List Diagnostic :=
  if s.isStepName name then []
  else [.error .undefinedCommand range ("Cannot find a definition for command named " ++ name)]

def stepsPlace (s : Scope) (usable : Parameters) (value : String) (range : Range) : List Diagnostic :=
  match s.referenced? usable value with
  | none => []
  | some p => match p.type with
    | .steps _ => []
    | _ => [.error .typeMismatch range "Parameter type is not steps"]

mutual
def step (s : Scope) (usable : Parameters) : Step → List Notice
  | .run r => run s usable r
  | .steps _ _ value valueRange => (stepsPlace s usable value valueRange).map .finding
  | .named ⟨name, range, parameters, _⟩ =>
    if name.isEmpty || s.isFromUnknownOrb name then []
    else if !s.isStepName name then
      [.finding (.error .undefinedCommand range ("Cannot find declaration for step " ++ name))]
    else if name == "store_test_results" then
      [.finding (.error .missingValue range "Path must be specified for `store_test_results` step")]
    else if Catalog.isBuiltInStep name then []
    else match s.definedParameters? name with
      | none => []
      | some declared =>
        (missing declared name range (Assignments.contains parameters)).map .finding ++
          values s usable name declared parameters
  | _ => []
def steps (s : Scope) (usable : Parameters) : List Step → List Notice
  | [] => []
  | st :: sts => step s usable st ++ steps s usable sts
def values (s : Scope) (usable : Parameters) (entity : String) (declared : Parameters) :
    List Assignment → List Notice
  | [] => []
  | ⟨name, v, valueRange, range⟩ :: as =>
    (match declared.get? name with
      | some p => value s usable p entity valueRange v
      | none => [.finding (undeclared name entity range)]) ++ values s usable entity declared as
/-- Checks a value given to a parameter. A value with a substitution inside is not known. -/
def value (s : Scope) (usable : Parameters) (p : Parameter) (entity : String) (range : Range) :
    Value → List Notice
  | .text text =>
    if Reference.isOnly text then (referenceValue s usable p entity range text).map .finding
    else if Reference.hasSubstitution text then []
    else match p.type with
      | .steps _ => [.finding (typeMismatch p entity range)]
      | _ => (plainValue s p entity range (.text text)).map .finding
  | .alias _ => []
  | .steps given => match p.type with
    | .steps _ => steps s usable given
    | _ => (plainValue s p entity range (.steps given)).map .finding
  | .list items => match p.type with
    | .steps _ => stepItems s usable items
    | _ => (plainValue s p entity range (.list items)).map .finding
  | v => match p.type with
    | .steps _ => [.finding (typeMismatch p entity range)]
    | _ => (plainValue s p entity range v).map .finding
def stepItems (s : Scope) (usable : Parameters) : List Assignment → List Notice
  | [] => []
  | ⟨_, v, valueRange, _⟩ :: as => stepItem s usable valueRange v ++ stepItems s usable as
def stepItem (s : Scope) (usable : Parameters) (range : Range) : Value → List Notice
  | .steps given => steps s usable given
  | .text name => (stepName s name range).map .finding
  | _ => []
end

def assignment (s : Scope) (usable : Parameters) (p : Parameter) (entity : String) (a : Assignment) :
    List Notice :=
  value s usable p entity a.valueRange a.value

/-- Checks the values of a call: all that is needed is given, and all that is given fits. -/
def call (s : Scope) (usable : Parameters) (entity : String) (range : Range) (declared : Parameters)
    (given : Assignments) : List Notice :=
  (missing declared entity range (Assignments.contains given)).map .finding ++
    values s usable entity declared given

end PipelineLint.Check
