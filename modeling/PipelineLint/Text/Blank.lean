/-! # Blank characters

The white space of the Unicode property `White_Space`, the class that trimming and the reference
patterns use. Text is handled as a list of characters; trimming removes blank characters at an end.
-/

namespace PipelineLint.Text

/-- The characters with the Unicode property `White_Space`. -/
def isBlank (c : Char) : Bool :=
  let n := c.toNat
  (9 ≤ n && n ≤ 13) || n == 0x20 || n == 0x85 || n == 0xA0 || n == 0x1680 ||
    (0x2000 ≤ n && n ≤ 0x200A) || n == 0x2028 || n == 0x2029 || n == 0x202F || n == 0x205F ||
    n == 0x3000

/-- Removes from the end the longest run of characters that satisfy `p`. -/
def dropEndWhile (p : Char → Bool) (cs : List Char) : List Char :=
  (cs.reverse.dropWhile p).reverse

/-- Removes from both ends the longest runs of characters that satisfy `p`. -/
def trimWhile (p : Char → Bool) (cs : List Char) : List Char :=
  dropEndWhile p (cs.dropWhile p)

def trimStart (cs : List Char) : List Char :=
  cs.dropWhile isBlank

def trimEnd (cs : List Char) : List Char :=
  dropEndWhile isBlank cs

/-- Removes the blank characters at both ends. -/
def trim (cs : List Char) : List Char :=
  trimWhile isBlank cs

def allBlank (cs : List Char) : Bool :=
  cs.all isBlank

end PipelineLint.Text
