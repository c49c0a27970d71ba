import PipelineLint.Text.Integer

/-! # Decimal fractions in text

A decimal is a sign, digits with a point at any place among them, and an exponent; only the digits are
needed. Its value is the nearest double.
-/

namespace PipelineLint.Text

/-- A decimal: digits, the power of ten they are multiplied with, and the sign. -/
structure Decimal where
  negative : Bool
  digits : List Char
  exponent : Int
  deriving DecidableEq, Repr

namespace Decimal

def sign : List Char → Bool × List Char
  | '-' :: cs => (true, cs)
  | '+' :: cs => (false, cs)
  | cs => (false, cs)

def exponent? (cs : List Char) : Option Int :=
  let (negative, rest) := sign cs
  (digits? rest).map fun n => if negative then -(n : Int) else n

def read? (cs : List Char) : Option Decimal :=
  let (negative, cs) := sign cs
  let whole := cs.takeWhile Char.isDigit
  let rest := cs.dropWhile Char.isDigit
  let (fraction, rest) := match rest with
    | '.' :: more => (more.takeWhile Char.isDigit, more.dropWhile Char.isDigit)
    | _ => ([], rest)
  if whole.isEmpty && fraction.isEmpty then none
  else
    let shift : Int := -(fraction.length : Int)
    match rest with
    | [] => some ⟨negative, whole ++ fraction, shift⟩
    | c :: more =>
      if c == 'e' || c == 'E' then (exponent? more).map fun e => ⟨negative, whole ++ fraction, e + shift⟩
      else none

/-- The nearest double. Beyond the exponents that doubles have, the value is infinite or zero. -/
def toFloat (d : Decimal) : Float :=
  let digits := d.digits.dropWhile (· == '0')
  let mantissa := ofDigits digits
  let magnitude := d.exponent + digits.length
  let value : Float :=
    if mantissa = 0 then 0.0
    else if magnitude > 400 then 1.0 / 0.0
    else if magnitude < -400 then 0.0
    else if d.exponent < 0 then Float.ofScientific mantissa true d.exponent.natAbs
    else Float.ofScientific mantissa false d.exponent.natAbs
  if d.negative then -value else value

end Decimal

/-- A double with the sign that it was written with, which "not a number" keeps too. -/
structure Double where
  value : Float
  negative : Bool
  deriving Inhabited

namespace Double

def bits (d : Double) : UInt64 :=
  if d.value.isNaN && d.negative then d.value.toBits ||| 0x8000000000000000 else d.value.toBits

/-- The double that a text writes: a decimal, or infinity or "not a number" in letters of any case. -/
def ofText? (cs : List Char) : Option Double :=
  let (negative, rest) := Decimal.sign cs
  let word := String.ofList (rest.map Char.toLower)
  if word = "inf" ∨ word = "infinity" then some ⟨if negative then -1.0 / 0.0 else 1.0 / 0.0, negative⟩
  else if word = "nan" then some ⟨0.0 / 0.0, negative⟩
  else (Decimal.read? cs).map fun d => ⟨d.toFloat, negative⟩

end Double

end PipelineLint.Text
