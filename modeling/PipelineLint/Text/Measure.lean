import PipelineLint.Text.Blank

/-! # Byte measures

Offsets into a text count the bytes of its UTF-8 form. `slice cs a b` is the text between two such
offsets; it exists where both lie between characters.
-/

namespace PipelineLint

structure InsideCharacter where
  offset : Nat
  deriving DecidableEq, Repr

namespace Text

/-- The number of bytes of the UTF-8 form. -/
def byteLength : List Char → Nat
  | [] => 0
  | c :: cs => c.utf8Size + byteLength cs

@[simp] theorem byteLength_nil : byteLength [] = 0 := rfl

@[simp] theorem byteLength_cons (c : Char) (cs : List Char) :
    byteLength (c :: cs) = c.utf8Size + byteLength cs := rfl

@[simp] theorem byteLength_append (xs ys : List Char) :
    byteLength (xs ++ ys) = byteLength xs + byteLength ys := by
  induction xs with
  | nil => simp
  | cons c cs ih => simp [ih, Nat.add_assoc]

/-- The text from the first character boundary at or after byte `n`. -/
def dropBytes : Nat → List Char → List Char
  | _, [] => []
  | n, c :: cs => if n = 0 then c :: cs else dropBytes (n - c.utf8Size) cs

/-- The text up to the first character boundary at or after byte `n`. -/
def takeBytes : Nat → List Char → List Char
  | _, [] => []
  | n, c :: cs => if n = 0 then [] else c :: takeBytes (n - c.utf8Size) cs

/-- Byte `n` is the start of a character, or the end of the text. -/
def isBoundary : Nat → List Char → Bool
  | n, [] => n = 0
  | n, c :: cs => n = 0 || (c.utf8Size ≤ n && isBoundary (n - c.utf8Size) cs)

theorem takeBytes_append_dropBytes (n : Nat) (cs : List Char) :
    takeBytes n cs ++ dropBytes n cs = cs := by
  induction cs generalizing n with
  | nil => rfl
  | cons c cs ih => by_cases h : n = 0 <;> simp [takeBytes, dropBytes, h, ih]

/-- The text between two byte offsets, if they are character boundaries in this order. -/
def slice? (cs : List Char) (start stop : Nat) : Option (List Char) :=
  if start ≤ stop ∧ isBoundary start cs ∧ isBoundary stop cs then
    some (takeBytes (stop - start) (dropBytes start cs))
  else none

/-- The text between two byte offsets, empty where there is none. -/
def slice (cs : List Char) (start stop : Nat) : List Char :=
  (slice? cs start stop).getD []

end Text

end PipelineLint
