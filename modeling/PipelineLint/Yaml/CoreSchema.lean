import PipelineLint.Yaml.Node

/-! # The core schema

The kind of value that an unquoted text stands for: null, a truth value, an integer, a float or a
string.

The spellings of truth values in YAML 1.1, matched exactly as written: `True` and `YES` are none.
-/

namespace PipelineLint.Yaml

namespace CoreSchema

def nulls : List String := ["~", "null", "Null", "NULL"]

/-- The spellings of truth values. -/
def booleans : List String := ["true", "True", "TRUE", "false", "False", "FALSE"]

/-- The spellings of infinity after a sign. -/
def infinities : List String := [".inf", ".Inf", ".INF"]

def notNumbers : List String := [".nan", ".NaN", ".NAN"]

/-- The text without a sign in front. -/
def dropSign : List Char → List Char
  | '+' :: cs => cs
  | '-' :: cs => cs
  | cs => cs

/-- A text of one or more characters that all satisfy `p`. -/
def isRun (p : Char → Bool) (cs : List Char) : Bool :=
  !cs.isEmpty && cs.all p

def isOctalDigit (c : Char) : Bool := '0' ≤ c && c ≤ '7'

def isHexDigit (c : Char) : Bool :=
  c.isDigit || ('a' ≤ c && c ≤ 'f') || ('A' ≤ c && c ≤ 'F')

/-- An integer: decimal with a sign or without, octal after `0o`, hexadecimal after `0x`. -/
def isInteger : List Char → Bool
  | '0' :: 'o' :: cs => isRun isOctalDigit cs
  | '0' :: 'x' :: cs => isRun isHexDigit cs
  | cs => isRun Char.isDigit (dropSign cs)

def isExponentOrEmpty : List Char → Bool
  | [] => true
  | c :: cs => (c == 'e' || c == 'E') && isRun Char.isDigit (dropSign cs)

/-- A float without a sign: digits on at least one side of a point, and perhaps an exponent. -/
def isUnsignedFloat (cs : List Char) : Bool :=
  let fraction := cs.dropWhile Char.isDigit
  match fraction with
  | '.' :: more =>
    (!(cs.takeWhile Char.isDigit).isEmpty || !(more.takeWhile Char.isDigit).isEmpty) &&
      isExponentOrEmpty (more.dropWhile Char.isDigit)
  | _ => !(cs.takeWhile Char.isDigit).isEmpty && isExponentOrEmpty fraction

def isFloat (cs : List Char) : Bool :=
  isUnsignedFloat (dropSign cs) || infinities.contains (String.ofList (dropSign cs)) ||
    notNumbers.contains (String.ofList cs)

def kindOf (cs : List Char) : Kind :=
  let text := String.ofList cs
  if nulls.contains text then .nullScalar
  else if booleans.contains text then .booleanScalar
  else if isInteger cs then .integerScalar
  else if isFloat cs then .floatScalar
  else .stringScalar

end CoreSchema

namespace Truth

def trueWords : List String := ["true", "yes", "y", "1", "on"]

def falseWords : List String := ["false", "no", "n", "0", "off"]

def isTruth (text : String) : Bool :=
  trueWords.contains text || falseWords.contains text

def read? (text : String) : Option Bool :=
  if trueWords.contains text then some true
  else if falseWords.contains text then some false
  else none

/-- The text is a truth word and no number: `1` and `0` count as numbers. -/
def isWord (text : String) : Bool :=
  isTruth text && !text.toList.all Char.isDigit

end Truth

end PipelineLint.Yaml
