import PipelineLint.Text.Lines

/-! # Integers in text

An integer is a run of decimal digits, with a sign in front where signs are allowed. A plus sign is
always allowed, and leading zeros do not matter. A number outside the asked range is none.
-/

namespace PipelineLint.Text

def digitValue (c : Char) : Nat := c.toNat - '0'.toNat

/-- The number that a run of digits writes. -/
def ofDigits (cs : List Char) : Nat :=
  cs.foldl (fun n c => n * 10 + digitValue c) 0

/-- The number that a text of digits and nothing else writes. -/
def digits? (cs : List Char) : Option Nat :=
  if !cs.isEmpty && cs.all Char.isDigit then some (ofDigits cs) else none

/-- A number without a minus sign, at most `high`. -/
def natural? (high : Nat) (cs : List Char) : Option Nat := do
  let n ← digits? (match cs with | '+' :: rest => rest | _ => cs)
  if n ≤ high then some n else none

def integer? (low high : Nat) (cs : List Char) : Option Int :=
  match cs with
  | '-' :: rest => (digits? rest).bind fun n => if n ≤ low then some (-(n : Int)) else none
  | _ => (natural? high cs).map fun n => (n : Int)

def signed? (bits : Nat) (cs : List Char) : Option Int :=
  integer? (Nat.pow 2 (bits - 1)) (Nat.pow 2 (bits - 1) - 1) cs

def unsigned? (bits : Nat) (cs : List Char) : Option Nat :=
  natural? (Nat.pow 2 bits - 1) cs

def hexValue? (c : Char) : Option Nat :=
  if c.isDigit then some (c.toNat - 48)
  else if 'a' ≤ c && c ≤ 'f' then some (c.toNat - 87)
  else if 'A' ≤ c && c ≤ 'F' then some (c.toNat - 55)
  else none

/-- The number that a run of hexadecimal digits writes. -/
def ofHex? (cs : List Char) : Option Nat :=
  cs.foldlM (fun n c => (hexValue? c).map (n * 16 + ·)) 0

end PipelineLint.Text
