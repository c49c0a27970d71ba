import PipelineLint.Concrete.Loader.Tag

/-! # Events of YAML text

The grammar of YAML turns tokens into events: scalars, aliases, and the starts and ends of collections. It is
a stack machine: the goal on top says what is expected next, and every step makes one event and replaces the
goal by those of its parts.
-/

namespace PipelineLint.Load

/-- What is said about a node besides its content. -/
structure Properties where
  anchor : Option (List Char) := none
  tag : Option (List Char) := none
  deriving DecidableEq, Repr, Inhabited

inductive EventKind where
  | scalar (properties : Properties) (text : List Char) (isPlain : Bool)
  | alias (name : List Char)
  | sequenceStart (properties : Properties)
  | sequenceEnd
  | mappingStart (properties : Properties)
  | mappingEnd
  deriving DecidableEq, Repr, Inhabited

structure Event where
  kind : EventKind
  mark : Mark
  deriving DecidableEq, Repr, Inhabited

namespace Event

def empty (mark : Mark) : Event := ⟨.scalar {} [] true, mark⟩

end Event

inductive Goal where
  /-- A node. Collections by indentation may be expected, also sequences as deep as the key before them. -/
  | node (allowsBlock allowsIndentless : Bool)
  | blockItem
  | indentlessItem
  | blockKey
  | blockValue
  | flowItem (isFirst : Bool)
  | pairKey
  | pairValue
  | pairEnd
  | flowKey (isFirst : Bool)
  | flowValue
  /-- The value of a key without a mark of keys. -/
  | flowNoValue
  deriving DecidableEq, Repr, Inhabited

inductive Stop where
  | noToken
  | fault (fault : Fault)
  deriving DecidableEq, Repr, Inhabited

abbrev Handles := List (List Char × List Char)

/-- An event with the goals of its parts and the tokens that are left. -/
abbrev Step := Except Stop (Event × List Goal × List Token)

def Token.fault {α : Type} (t : Token) (problem : Problem) : Except Stop α :=
  .error (.fault ⟨problem, t.mark⟩)

def fullTag (handles : Handles) (mark : Mark) (handle text : List Char) : Except Stop (List Char) :=
  if handle.isEmpty then .ok text
  else match handles.find? (·.1 == handle) with
    | some (_, meaning) => .ok (meaning ++ text)
    | none => .error (.fault ⟨.undefinedTagHandle, mark⟩)

/-- The properties at the start of a node, in either order. -/
def readProperties (handles : Handles) : List Token → Except Stop (Properties × List Token)
  | ⟨.anchor name, _⟩ :: rest => match rest with
    | ⟨.tag handle text, m⟩ :: rest => match rest with
      | [] => .error .noToken
      | _ => do pure (⟨some name, some (← fullTag handles m handle text)⟩, rest)
    | [] => .error .noToken
    | _ => .ok (⟨some name, none⟩, rest)
  | ⟨.tag handle text, m⟩ :: rest => match rest with
    | ⟨.anchor name, _⟩ :: rest => match rest with
      | [] => .error .noToken
      | _ => do pure (⟨some name, some (← fullTag handles m handle text)⟩, rest)
    | [] => .error .noToken
    | _ => do pure (⟨none, some (← fullTag handles m handle text)⟩, rest)
  | tokens => .ok ({}, tokens)

def readNode (handles : Handles) (allowsBlock allowsIndentless : Bool) (tokens : List Token) : Step := do
  match tokens with
  | [] => throw .noToken
  | ⟨.alias name, m⟩ :: rest => pure (⟨.alias name, m⟩, [], rest)
  | start :: _ =>
    let (properties, tokens) ← readProperties handles tokens
    match tokens with
    | [] => throw .noToken
    | t :: rest => match t.kind, allowsBlock, allowsIndentless with
      | .blockEntry, _, true => pure (⟨.sequenceStart properties, start.mark⟩, [.indentlessItem], tokens)
      | .scalar text isPlain, _, _ => pure (⟨.scalar properties text isPlain, start.mark⟩, [], rest)
      | .flowSequenceStart, _, _ => pure (⟨.sequenceStart properties, start.mark⟩, [.flowItem true], rest)
      | .flowMappingStart, _, _ => pure (⟨.mappingStart properties, start.mark⟩, [.flowKey true], rest)
      | .blockSequenceStart, true, _ => pure (⟨.sequenceStart properties, start.mark⟩, [.blockItem], rest)
      | .blockMappingStart, true, _ => pure (⟨.mappingStart properties, start.mark⟩, [.blockKey], rest)
      | _, _, _ =>
        if properties == {} then t.fault .nodeContent
        else pure (⟨.scalar properties [] true, start.mark⟩, [], tokens)

/-- Reads a node, unless a token of some kinds shows that there is none. -/
def readOptional (handles : Handles) (block indentless : Bool) (next : Goal) (without : List TokenKind)
    (tokens : List Token) : Step := do
  match tokens with
  | [] => throw .noToken
  | t :: _ =>
    if without.contains t.kind then pure (.empty t.mark, [next], tokens)
    else
      let (event, goals, rest) ← readNode handles block indentless tokens
      pure (event, goals ++ [next], rest)

def passComma (isFirst : Bool) (last : TokenKind) (problem : Problem) (tokens : List Token) :
    Except Stop (List Token) :=
  match tokens with
  | [] => .error .noToken
  | t :: rest =>
    if isFirst || t.kind = last then .ok tokens
    else if t.kind = .flowEntry then .ok rest
    else t.fault problem

def Goal.step (handles : Handles) : Goal → List Token → Step
  | _, [] => .error .noToken
  | .node block indentless, tokens => readNode handles block indentless tokens
  | .blockItem, t :: rest => match t.kind with
    | .blockEntry => readOptional handles true false .blockItem [.blockEntry, .blockEnd] rest
    | .blockEnd => .ok (⟨.sequenceEnd, t.mark⟩, [], rest)
    | _ => t.fault .sequenceEntry
  | .indentlessItem, t :: rest => match t.kind with
    | .blockEntry =>
      readOptional handles true false .indentlessItem [.blockEntry, .key, .value, .blockEnd] rest
    | _ => .ok (⟨.sequenceEnd, t.mark⟩, [], t :: rest)
  | .blockKey, t :: rest => match t.kind with
    | .key => readOptional handles true true .blockValue [.key, .value, .blockEnd] rest
    | .blockEnd => .ok (⟨.mappingEnd, t.mark⟩, [], rest)
    | _ => t.fault .mappingEntry
  | .blockValue, t :: rest => match t.kind with
    | .value => readOptional handles true true .blockKey [.key, .value, .blockEnd] rest
    | _ => .ok (.empty t.mark, [.blockKey], t :: rest)
  | .flowItem isFirst, tokens => do
    match ← passComma isFirst .flowSequenceEnd .flowSequenceEntry tokens with
    | [] => throw .noToken
    | t :: rest => match t.kind with
      | .key => pure (⟨.mappingStart {}, t.mark⟩, [.pairKey, .flowItem false], rest)
      | .flowSequenceEnd => pure (⟨.sequenceEnd, t.mark⟩, [], rest)
      | _ =>
        let (event, goals, rest) ← readNode handles false false (t :: rest)
        pure (event, goals ++ [.flowItem false], rest)
  | .pairKey, t :: rest =>
    if [.value, .flowEntry, .flowSequenceEnd].contains t.kind then .ok (.empty t.mark, [.pairValue], rest)
    else readOptional handles false false .pairValue [] (t :: rest)
  | .pairValue, t :: rest => match t.kind with
    | .value => readOptional handles false false .pairEnd [.flowEntry, .flowSequenceEnd] rest
    | _ => .ok (.empty t.mark, [.pairEnd], t :: rest)
  | .pairEnd, t :: rest => .ok (⟨.mappingEnd, t.mark⟩, [], t :: rest)
  | .flowKey isFirst, tokens => do
    match ← passComma isFirst .flowMappingEnd .flowMappingEntry tokens with
    | [] => throw .noToken
    | t :: rest => match t.kind with
      | .key => readOptional handles false false .flowValue [.value, .flowEntry, .flowMappingEnd] rest
      | .flowMappingEnd => pure (⟨.mappingEnd, t.mark⟩, [], rest)
      | _ => readOptional handles false false .flowNoValue [] (t :: rest)
  | .flowValue, t :: rest => match t.kind with
    | .value => readOptional handles false false (.flowKey false) [.flowEntry, .flowMappingEnd] rest
    | _ => .ok (.empty t.mark, [.flowKey false], t :: rest)
  | .flowNoValue, t :: rest => .ok (.empty t.mark, [.flowKey false], t :: rest)

structure Events where
  events : List Event := []
  fault : Option Fault := none
  hasMore : Bool := false
  deriving Repr, Inhabited

/-- Reads the events of a document to its end. `fault` is the problem at the end of the tokens. -/
def readEvents (handles : Handles) (fault : Option Fault) : Nat → List Goal → List Token → Events
  | 0, _, _ => {}
  | _, [], tokens => match tokens with
    | [] => { fault }
    | _ =>
      let after := tokens.dropWhile (·.kind = .documentEnd)
      { hasMore := after.head?.all (·.kind != .streamEnd) }
  | fuel + 1, goal :: goals, tokens => match goal.step handles tokens with
    | .error .noToken => { fault }
    | .error (.fault f) => { fault := some f }
    | .ok (event, parts, rest) =>
      let more := readEvents handles fault fuel (parts ++ goals) rest
      { more with events := event :: more.events }

/-- What handles stand for unless directives say otherwise. -/
def usualHandles : Handles := [(['!'], ['!']), (['!', '!'], "tag:yaml.org,2002:".toList)]

def readDirectives (hasVersion : Bool) (handles : Handles) : List Token → Except Stop (Handles × List Token)
  | [] => .error .noToken
  | t :: rest => match t.kind with
    | .version major minor =>
      if hasVersion then t.fault .duplicateVersion
      else if major != 1 || (minor != 1 && minor != 2) then t.fault .incompatibleVersion
      else readDirectives true handles rest
    | .tagHandle handle meaning =>
      if handles.any (·.1 == handle) then t.fault .duplicateTagDirective
      else readDirectives hasVersion (handles ++ [(handle, meaning)]) rest
    | .documentStart => .ok (handles ++ usualHandles, rest)
    | _ => t.fault .documentStart

def isDocumentBound : TokenKind → Bool
  | .version _ _ => true
  | .tagHandle _ _ => true
  | .documentStart => true
  | .documentEnd => true
  | .streamEnd => true
  | _ => false

def events (text : List Char) : Events :=
  let (tokens, fault) := tokens text
  let fuel := 4 * tokens.length + 8
  match tokens with
  | [] => { fault }
  | t :: _ => match t.kind with
    | .streamEnd => {}
    | .version _ _ | .tagHandle _ _ | .documentStart => match readDirectives false [] tokens with
      | .error .noToken => { fault }
      | .error (.fault f) => { fault := some f }
      | .ok (_, []) => { fault }
      | .ok (handles, t :: rest) =>
        if isDocumentBound t.kind then
          let more := readEvents handles fault fuel [] (t :: rest)
          { more with events := .empty t.mark :: more.events }
        else readEvents handles fault fuel [.node true false] (t :: rest)
    | _ => readEvents usualHandles fault fuel [.node true false] tokens

end PipelineLint.Load
