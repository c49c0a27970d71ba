import PipelineLint.Text.Lines

/-! # Faults in YAML text

A fault says what is wrong at which place of a text. Places are lines and columns counted from zero, and the
number of characters before them.
-/

namespace PipelineLint.Load

structure Mark where
  line : Nat := 0
  column : Nat := 0
  /-- The number of characters before the place. -/
  index : Nat := 0
  deriving DecidableEq, Repr, Inhabited

namespace Mark

def isStart (m : Mark) : Bool := m.line == 0 && m.column == 0

/-- The text behind a message about a place. -/
def suffixText (m : Mark) : String :=
  if m.isStart then ""
  else " at line " ++ toString (m.line + 1) ++ " column " ++ toString (m.column + 1)

end Mark

inductive Problem where
  /-- A control character after some bytes of the text. -/
  | controlCharacter (offset : Nat)
  | cannotStart
  | noColon
  | blockEntry
  | mappingKey
  | mappingValue
  | directiveName
  | directiveNameEnd
  | unknownDirective
  | directiveEnd
  | versionNumber
  | longVersionNumber
  | versionPoint
  | anchorName
  | tagMark
  | tagUri
  | tagBracket
  | tagBlank
  | tagEnd
  | uriOctet
  | uriLeading
  | uriTrailing
  | zeroIndentation
  | blockScalarHeader
  | blockScalarTab
  | documentIndicator
  | quotedEnd
  | unknownEscape
  | hexadecimal
  | escapedCharacter
  | unexpectedColon
  | plainTab
  | documentStart
  | duplicateVersion
  | incompatibleVersion
  | duplicateTagDirective
  | undefinedTagHandle
  | nodeContent
  | sequenceEntry
  | mappingEntry
  | flowSequenceEntry
  | flowMappingEntry
  deriving DecidableEq, Repr, Inhabited

namespace Problem

def text : Problem → String
  | controlCharacter _ => "control characters are not allowed"
  | cannotStart => "found character that cannot start any token"
  | noColon => "could not find expected ':'"
  | blockEntry => "block sequence entries are not allowed in this context"
  | mappingKey => "mapping keys are not allowed in this context"
  | mappingValue => "mapping values are not allowed in this context"
  | directiveName => "could not find expected directive name"
  | directiveNameEnd => "found unexpected non-alphabetical character"
  | unknownDirective => "found unknown directive name"
  | directiveEnd => "did not find expected comment or line break"
  | versionNumber => "did not find expected version number"
  | longVersionNumber => "found extremely long version number"
  | versionPoint => "did not find expected digit or '.' character"
  | anchorName => "did not find expected alphabetic or numeric character"
  | tagMark => "did not find expected '!'"
  | tagUri => "did not find expected tag URI"
  | tagBracket => "did not find the expected '>'"
  | tagBlank => "did not find expected whitespace"
  | tagEnd => "did not find expected whitespace or line break"
  | uriOctet => "did not find URI escaped octet"
  | uriLeading => "found an incorrect leading UTF-8 octet"
  | uriTrailing => "found an incorrect trailing UTF-8 octet"
  | zeroIndentation => "found an indentation indicator equal to 0"
  | blockScalarHeader => "did not find expected comment or line break"
  | blockScalarTab => "found a tab character where an indentation space is expected"
  | documentIndicator => "found unexpected document indicator"
  | quotedEnd => "found unexpected end of stream"
  | unknownEscape => "found unknown escape character"
  | hexadecimal => "did not find expected hexadecimal number"
  | escapedCharacter => "found invalid Unicode character escape code"
  | unexpectedColon => "found unexpected ':'"
  | plainTab => "found a tab character that violates indentation"
  | documentStart => "did not find expected <document start>"
  | duplicateVersion => "found duplicate %YAML directive"
  | incompatibleVersion => "found incompatible YAML document"
  | duplicateTagDirective => "found duplicate %TAG directive"
  | undefinedTagHandle => "found undefined tag handle"
  | nodeContent => "did not find expected node content"
  | sequenceEntry => "did not find expected '-' indicator"
  | mappingEntry => "did not find expected key"
  | flowSequenceEntry => "did not find expected ',' or ']'"
  | flowMappingEntry => "did not find expected ',' or '\x7d'"

/-- What was read when a problem came up at the very start of a text. -/
def activity? : Problem → Option String
  | cannotStart => some "while scanning for the next token"
  | undefinedTagHandle => some "while parsing a node"
  | nodeContent => some "while parsing a block node"
  | mappingEntry => some "while parsing a block mapping"
  | _ => none

end Problem

structure Fault where
  problem : Problem
  mark : Mark
  deriving DecidableEq, Repr, Inhabited

namespace Fault

/-- The text of a fault, with its place. At the very start of a text the activity stands for the place. -/
def text (f : Fault) : String :=
  f.problem.text ++ match f.mark.isStart, f.problem with
    | true, .controlCharacter offset => if offset = 0 then "" else " at position " ++ toString offset
    | true, problem => match problem.activity? with
      | some activity => ", " ++ activity
      | none => ""
    | false, _ => f.mark.suffixText

end Fault

end PipelineLint.Load
