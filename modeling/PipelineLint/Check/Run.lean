import PipelineLint.Check.Scope

/-! # Run steps

A step that runs a command may be repeated when it fails, after a delay, and may depend on the outcome of
the steps before it.
-/

namespace PipelineLint.Check

open Text

/-- The greatest number of automatic reruns. -/
def maxAutoReruns : Int := 5

/-- The longest delay before a rerun, in seconds. -/
def maxRerunDelay : Nat := 600

def secondsOfUnit? : Char → Option Nat
  | 'h' => some 3600
  | 'm' => some 60
  | 's' => some 1
  | _ => none

/-- Reads a duration such as `1h30m` in seconds: digits with a unit after them, any number of times. `total`
are the seconds read so far and `digits` the digits before the next unit. No number goes beyond 64 bits. -/
def durationFrom (total : Nat) (digits : List Char) : List Char → Option Nat
  | [] => if digits.isEmpty then some total else none
  | c :: cs =>
    if c.isDigit then durationFrom total (digits ++ [c]) cs
    else do
      let unit ← secondsOfUnit? c
      let amount ← unsigned? 64 digits
      let sum := total + amount * unit
      if sum < Nat.pow 2 64 then durationFrom sum [] cs else none

def duration? (cs : List Char) : Option Nat :=
  if cs.isEmpty then none else durationFrom 0 [] cs

/-- A number without zeros in front. -/
def isCount (cs : List Char) : Bool :=
  !cs.isEmpty && cs.all Char.isDigit && cs.head? != some '0'

/-- A delay is written in whole seconds, or in one to ten minutes. -/
def isRerunDelay (cs : List Char) : Bool :=
  match cs.getLast? with
  | some 's' => isCount cs.dropLast
  | some 'm' => isCount cs.dropLast && ofDigits cs.dropLast ≤ 10
  | _ => false

def rerunDelayFault? (text : String) : Option String :=
  match duration? text.toList with
  | none => some "auto_rerun_delay must be a valid duration"
  | some seconds =>
    if seconds > maxRerunDelay then some "auto_rerun_delay must not exceed 10 minutes"
    else if isRerunDelay text.toList then none
    else some "auto_rerun_delay must be written in whole seconds (`30s`) or minutes (`5m`)"

def isRerunCount (text : String) : Bool :=
  (signed? 64 text.toList).any fun n => 1 ≤ n && n ≤ maxAutoReruns

/-- What is said about a number of reruns. -/
def rerunCountMessage : String := "max_auto_reruns must be between 1 and 5"

def reruns (r : Run) : List Diagnostic :=
  let fault (message : String) (field : Located) : Diagnostic := .error .invalidRun field.range message
  let background := match r.maxAutoReruns with
    | some count =>
      if r.background then [fault "max_auto_reruns cannot be used on a background step" count] else []
    | none => []
  let delay := match r.autoRerunDelay with
    | some delay =>
      (if r.maxAutoReruns.isNone then
        [fault "auto_rerun_delay requires max_auto_reruns to be set" delay] else []) ++
      (if Reference.hasSubstitution delay.text then []
        else ((rerunDelayFault? delay.text).map fun message => fault message delay).toList)
    | none => []
  let count := match r.maxAutoReruns with
    | some count =>
      if Reference.hasSubstitution count.text || isRerunCount count.text then []
      else [fault rerunCountMessage count]
    | none => []
  background ++ delay ++ count

def conditionText (range : Range) (text : String) : List Diagnostic :=
  if Catalog.runWhenKeywords.contains text then []
  else [.error .invalidRun range ("Invalid when condition: expected `on_success`, `always`, `on_fail`; got `" ++
    text ++ "`")]

/-- Checks the condition of a run step. A reference stands for the default of its parameter, which must be
text. -/
def condition (s : Scope) (usable : Parameters) (c : Located) : List Diagnostic :=
  if Reference.isOnly c.text then
    match s.referenced? usable c.text with
    | none => []
    | some p => match p.type with
      | .string _ | .enum .. =>
        if p.isOptional then
          match p.defaultText? with
          | some text => conditionText c.range text
          | none => []
        else []
      | _ => [.error .typeMismatch c.range ("Parameter " ++ p.name ++
          " is not a string type parameter, and therefore cannot be used inside the `when` field")]
  else if Reference.hasSubstitution c.text || Reference.isPartial c.text then []
  else conditionText c.range c.text

def run (s : Scope) (usable : Parameters) (r : Run) : List Notice :=
  let deploy := if r.isDeploy then
    [(Diagnostic.warning .deprecatedKey r.range
      "The `deploy` step is deprecated. Please use the `run` job instead.").withTag .deprecated] else []
  let found := deploy ++ reruns r ++
    match r.condition with
    | some c => condition s usable c
    | none => []
  found.map .finding ++ if s.settings.lintsScripts then [.script r] else []

end PipelineLint.Check
