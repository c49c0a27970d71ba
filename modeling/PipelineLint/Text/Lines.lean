import PipelineLint.Text.Measure

/-! # Lines

A line ends at a line feed; a carriage return right before the line feed belongs to the line break.
A line feed at the end of the text starts no further line.
-/

namespace PipelineLint.Text

/-- The parts of a text between the characters that satisfy `p`; one part more than there are such
characters. -/
def splitOn (p : Char → Bool) : List Char → List (List Char)
  | [] => [[]]
  | c :: cs =>
    if p c then [] :: splitOn p cs
    else match splitOn p cs with
      | [] => [[c]]
      | part :: parts => (c :: part) :: parts

/-- Removes one carriage return at the end. -/
def dropReturn (cs : List Char) : List Char :=
  if cs.getLast? = some '\r' then cs.dropLast else cs

/-- The lines of a text. A carriage return is dropped only before a line feed. -/
def lines (cs : List Char) : List (List Char) :=
  match (splitOn (· == '\n') cs).reverse with
  | [] => []
  | [] :: before => (before.map dropReturn).reverse
  | last :: before => (last :: before.map dropReturn).reverse

def join (separator : List Char) (parts : List (List Char)) : List Char :=
  separator.intercalate parts

/-- What follows `start` at the beginning of a text. -/
def dropPrefix? : List Char → List Char → Option (List Char)
  | [], cs => some cs
  | _ :: _, [] => none
  | p :: ps, c :: cs => if p = c then dropPrefix? ps cs else none

def startsWith (cs start : List Char) : Bool :=
  (dropPrefix? start cs).isSome

def endsWith (cs ending : List Char) : Bool :=
  startsWith cs.reverse ending.reverse

def cut? (mark : List Char) : List Char → Option (List Char × List Char)
  | [] => if mark.isEmpty then some ([], []) else none
  | c :: cs =>
    match dropPrefix? mark (c :: cs) with
    | some rest => some ([], rest)
    | none => (cut? mark cs).map fun (before, after) => (c :: before, after)

theorem notMem_of_cut?_eq_some {mark : Char} {cs before after : List Char}
    (h : cut? [mark] cs = some (before, after)) : mark ∉ before := by
  induction cs generalizing before with
  | nil => simp [cut?] at h
  | cons c cs ih =>
    by_cases hc : mark = c
    · obtain ⟨rfl, -⟩ : before = [] ∧ after = cs := by simpa [cut?, dropPrefix?, hc, eq_comm] using h
      exact List.not_mem_nil
    · simp only [cut?, dropPrefix?, hc, if_false, Option.map_eq_some_iff] at h
      obtain ⟨⟨first, rest⟩, hcut, heq⟩ := h
      obtain ⟨rfl, rfl⟩ := Prod.mk.inj heq
      simp [hc, ih hcut]

theorem notMem_of_cut?_eq_none {mark : Char} {cs : List Char} (h : cut? [mark] cs = none) : mark ∉ cs := by
  induction cs with
  | nil => simp
  | cons c cs ih =>
    by_cases hc : mark = c
    · simp [cut?, dropPrefix?, hc] at h
    · simp only [cut?, dropPrefix?, hc, if_false, Option.map_eq_none_iff] at h
      simp [hc, ih h]

def occurs (mark cs : List Char) : Bool :=
  (cut? mark cs).isSome

/-- The parts of a text between the occurrences of one character. -/
def splitAtChar (mark : Char) (cs : List Char) : List (List Char) :=
  splitOn (· == mark) cs

end PipelineLint.Text
