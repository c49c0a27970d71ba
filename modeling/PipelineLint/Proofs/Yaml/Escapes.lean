import PipelineLint.Proofs.Text.Blank
import PipelineLint.Proofs.Text.Measure
import PipelineLint.Concrete.Grammar.Stream
import PipelineLint.Yaml.View

/-! # Texts in quotation marks

A string is written in double quotes with escapes, and in single quotes with each single quote twice. What is written
stands for the string, whatever it starts and ends with.
-/

namespace PipelineLint.Yaml

namespace ScalarText

open Text

/-- A character as it is written in double quotes. -/
def escape : Char → List Char
  | '\\' => ['\\', '\\']
  | '"' => ['\\', '"']
  | '\n' => ['\\', 'n']
  | '\t' => ['\\', 't']
  | c => [c]

/-- A character as it is written in single quotes. -/
def double : Char → List Char
  | '\'' => ['\'', '\'']
  | c => [c]

def inDoubleQuotes (s : List Char) : List Char := '"' :: (s.flatMap escape ++ ['"'])

def inSingleQuotes (s : List Char) : List Char := '\'' :: (s.flatMap double ++ ['\''])

variable {quote : Char}

/-- The marks around a text are no white space, so trimming leaves them, and they are removed once. -/
theorem unquote_marks (hquote : isBlank quote = false) (inside : List Char) :
    unquote quote (quote :: (inside ++ [quote])) = inside := by
  have hhead : ∀ c ∈ (quote :: (inside ++ [quote])).head?, isBlank c = false := by simpa using hquote
  have hlast : ∀ c ∈ (quote :: (inside ++ [quote])).getLast?, isBlank c = false := by
    rw [← List.cons_append, List.getLast?_concat]
    simpa using hquote
  have hmiddle : trimWhile isBlank ([] ++ (quote :: (inside ++ [quote]) ++ [])) = _ :=
    trimWhile_append hhead hlast (List.cons_ne_nil _ _)
  have htrim : trim (quote :: (inside ++ [quote])) = quote :: (inside ++ [quote]) := by
    simpa [trim, dropEndWhile] using hmiddle
  rw [unquote, htrim]
  simp

private theorem unescape_cons_of_ne {c : Char} (hc : c ≠ '\\') (cs : List Char) :
    unescape (c :: cs) = c :: unescape cs := by
  cases cs <;> simp [unescape, hc]

theorem unescape_escape_append (c : Char) (cs : List Char) : unescape (escape c ++ cs) = c :: unescape cs := by
  fun_cases escape c with
  | case1 | case2 | case3 | case4 => rfl
  | case5 c hbackslash => exact unescape_cons_of_ne hbackslash cs

theorem undouble_double_append (c : Char) (cs : List Char) : undouble (double c ++ cs) = c :: undouble cs := by
  fun_cases double c with
  | case1 => simp [undouble]
  | case2 c hquote =>
    rw [List.singleton_append, undouble]
    exact fun _ hc _ => hquote hc

private theorem unescape_flatMap_escape (s : List Char) : unescape (s.flatMap escape) = s := by
  induction s with
  | nil => rfl
  | cons c s ih => rw [List.flatMap_cons, unescape_escape_append, ih]

private theorem undouble_flatMap_double (s : List Char) : undouble (s.flatMap double) = s := by
  induction s with
  | nil => rfl
  | cons c s ih => rw [List.flatMap_cons, undouble_double_append, ih]

private theorem doubleQuoted_inDoubleQuotes (s : List Char) : doubleQuoted (inDoubleQuotes s) = s := by
  rw [doubleQuoted, inDoubleQuotes, unquote_marks (by decide), unescape_flatMap_escape]

private theorem singleQuoted_inSingleQuotes (s : List Char) : singleQuoted (inSingleQuotes s) = s := by
  rw [singleQuoted, inSingleQuotes, unquote_marks (by decide), undouble_flatMap_double]

end ScalarText

namespace View

open ScalarText

/-- A value whose scalar is a string written in quotation marks has this string as its text. -/
theorem text_of_quotes (v : View) {n scalar : Node} (s : String) (hscalar : v.content? n = some scalar) :
    (scalar.kind = .doubleQuoteScalar → v.rawText scalar = inDoubleQuotes s.toList → v.text n = s) ∧
      (scalar.kind = .singleQuoteScalar → v.rawText scalar = inSingleQuotes s.toList → v.text n = s) := by
  constructor
  · intro hkind hraw
    rw [text, characters]
    simp only [hscalar, hkind, hraw]
    rw [doubleQuoted_inDoubleQuotes, String.ofList_toList]
  · intro hkind hraw
    rw [text, characters]
    simp only [hscalar, hkind, hraw]
    rw [singleQuoted_inSingleQuotes, String.ofList_toList]

/-- A string that starts and ends with white space, with quotation marks and backslashes in between. -/
def awkward : List Char := "\t\"'\\\"\\\n ".toList

/-- The string in double quotes. -/
def awkwardScalar : Tree := Grammar.strict.tree (inDoubleQuotes awkward)

theorem text_of_quotes_awkward : ∃ scalar, (ofTree awkwardScalar).content? awkwardScalar.top = some scalar ∧
    scalar.kind = .doubleQuoteScalar ∧ (ofTree awkwardScalar).rawText scalar = inDoubleQuotes awkward ∧
      (ofTree awkwardScalar).text awkwardScalar.top = String.ofList awkward := by
  obtain ⟨hcontent, hkind, hraw⟩ : ((ofTree awkwardScalar).content? awkwardScalar.top).isSome = true ∧
      ((ofTree awkwardScalar).content? awkwardScalar.top).map Node.kind = some .doubleQuoteScalar ∧
      ((ofTree awkwardScalar).content? awkwardScalar.top).map (ofTree awkwardScalar).rawText =
        some (inDoubleQuotes awkward) := by
    decide +kernel
  obtain ⟨scalar, hscalar⟩ := Option.isSome_iff_exists.mp hcontent
  rw [hscalar, Option.map_some, Option.some.injEq] at hkind hraw
  refine ⟨scalar, hscalar, hkind, hraw, ?_⟩
  exact (text_of_quotes (ofTree awkwardScalar) (String.ofList awkward) hscalar).1 hkind
    (by rw [hraw, String.toList_ofList])

end View

end PipelineLint.Yaml
