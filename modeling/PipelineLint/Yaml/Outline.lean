import PipelineLint.Yaml.Node
import PipelineLint.Text.Integer

/-! # Outlines

An outline writes a tree as nested parentheses: the kind of each node, its place, and its children. Keys
and values are marked as such, and so are missing nodes. `Outline.render` writes a tree and
`Outline.read?` reads one over the text that it belongs to.
-/

namespace PipelineLint.Yaml.Outline

open Text

/-- A place as row and column. -/
def renderMark (m : Mark) : String :=
  toString m.row ++ ":" ++ toString m.column

def renderRole : Role → String
  | .key => "key="
  | .value => "value="
  | .part => ""

mutual
def render : Node → String
  | ⟨_, kind, role, missing, start, stop, children⟩ =>
    renderRole role ++ "(" ++ (if missing then "MISSING " else "") ++ kind.name ++ " " ++
      renderMark start ++ "-" ++ renderMark stop ++ renderAll children ++ ")"
/-- The outlines of trees, each after a space. -/
def renderAll : List Node → String
  | [] => ""
  | n :: ns => " " ++ render n ++ renderAll ns
end

/-- The pieces of an outline: parentheses, words and marks of roles. -/
inductive Token where
  | opening (role : Role)
  | closing
  | word (text : List Char)
  deriving Repr

/-- The role that a word before an opening parenthesis gives. -/
def roleOf : List Char → Option Role
  | [] => some .part
  | word =>
    if word = "key=".toList then some .key
    else if word = "value=".toList then some .value
    else none

/-- Splits an outline into tokens; `pending` holds the current word backwards. -/
def tokens? (pending : List Char) : List Char → Option (List Token)
  | [] => if pending.isEmpty then some [] else none
  | '(' :: cs => do
    let role ← roleOf pending.reverse
    pure (.opening role :: (← tokens? [] cs))
  | ')' :: cs => do
    let rest ← tokens? [] cs
    pure (if pending.isEmpty then .closing :: rest else .word pending.reverse :: .closing :: rest)
  | ' ' :: cs => do
    let rest ← tokens? [] cs
    pure (if pending.isEmpty then rest else .word pending.reverse :: rest)
  | c :: cs => tokens? (c :: pending) cs

/-- The mark of a row and column of a text. -/
def mark? (source cs : List Char) : Option Mark :=
  match splitAtChar ':' cs with
  | [row, column] => do
    let row ← digits? row
    let column ← digits? column
    let start ← lineStart? row source
    pure ⟨start + column, row, column⟩
  | _ => none

def place? (source cs : List Char) : Option (Mark × Mark) :=
  match splitAtChar '-' cs with
  | [start, stop] => do pure (← mark? source start, ← mark? source stop)
  | _ => none

/-- The kind that an outline names after an opening parenthesis, whether it is missing, and the tokens
that follow. -/
def heading? : List Token → Option (Bool × Kind × List Token)
  | .word first :: .word second :: tokens =>
    if first = "MISSING".toList then some (true, Kind.ofName (String.ofList second), tokens)
    else some (false, Kind.ofName (String.ofList first), .word second :: tokens)
  | _ => none

/-- Builds the nodes whose tokens come first, up to the closing parenthesis of the node above; gives
also the remaining tokens. -/
def nodes? (source : List Char) : Nat → List Token → Option (List Node × List Token)
  | 0, _ => none
  | fuel + 1, .opening role :: tokens => do
    let (missing, kind, tokens) ← heading? tokens
    match tokens with
    | .word place :: tokens => do
      let (start, stop) ← place? source place
      let (children, tokens) ← nodes? source fuel tokens
      match tokens with
      | .closing :: tokens => do
        let (siblings, tokens) ← nodes? source fuel tokens
        pure (⟨0, kind, role, missing, start, stop, children⟩ :: siblings, tokens)
      | _ => none
    | _ => none
  | _, tokens => some ([], tokens)

def read? (source outline : List Char) : Option Node := do
  let tokens ← tokens? [] outline
  match ← nodes? source (tokens.length + 1) tokens with
  | ([root], []) => pure root.number
  | _ => none

end PipelineLint.Yaml.Outline
