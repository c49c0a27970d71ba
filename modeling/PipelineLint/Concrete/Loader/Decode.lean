import PipelineLint.Concrete.Loader.Value
import PipelineLint.Load.Decode

/-! # A loader

The first document of a text is read in full, and the text must have no other. Merge keys and keys of plain data are
treated as `Value.merge` and `Value.toData` say.
-/

namespace PipelineLint.Load

namespace ValueError

/-- What is said about a value that is not read, with its place. -/
def text : ValueError → String
  | document (.text fault) => fault.text
  | document (.unknownAnchor mark) => "unknown anchor" ++ mark.suffixText
  | tooDeep mark => "recursion limit exceeded" ++ mark.suffixText
  | tooManyAliases => "repetition limit exceeded"
  | invalid way mark problem => (if way == "." then "" else way ++ ": ") ++ problem.text ++ mark.suffixText

def line? : ValueError → Option Nat
  | document (.text fault) => some (fault.mark.line + 1)
  | document (.unknownAnchor mark) => some (mark.line + 1)
  | tooDeep mark => some (mark.line + 1)
  | tooManyAliases => none
  | invalid _ mark _ => some (mark.line + 1)

def toYaml (e : ValueError) : YamlError := ⟨e.text, e.line?⟩

end ValueError

namespace Loader

def read (text : List Char) : Except YamlError Value := do
  let document := Loaded.ofText text
  let value ← document.value.mapError ValueError.toYaml
  if let some fault := document.fault then throw (ValueError.document fault).toYaml
  if document.hasMore then
    throw { text := "deserializing from YAML containing more than one document is not supported" }
  pure value

def standard : Loader where
  load := read
  applyMerge value := value.merge.mapError fun problem => { text := problem.text }
  toData value := value.toData.mapError KeyProblem.text

end Loader

end PipelineLint.Load
