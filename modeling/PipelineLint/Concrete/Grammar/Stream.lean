import PipelineLint.Concrete.Grammar.Block
import PipelineLint.Concrete.Grammar.Token
import PipelineLint.Yaml.Tree

/-! # Documents and streams

A text is a stream of documents. `Grammar.strict` reads a text into its tree; a text that the grammar does
not accept becomes an error node over what was complete up to the first token that cannot follow. Where a document
could begin or could be complete, though, a text that goes on with something that is no value is cut off there, if
what stands before weighs enough.

The lines before a document that start with a percent sign: the version of the language, the handle of a
tag, or something reserved.
-/

namespace PipelineLint.Yaml

namespace Directive

/-- The head after a version: digits, a point and digits. -/
def version (h : Head) : Option Head :=
  let major := h.stepsWhile Char.isDigit
  let point := major.step
  let last := point.stepsWhile Char.isDigit
  if h.rest.head?.any Char.isDigit && major.rest.head? == some '.' && point.rest.head?.any Char.isDigit
  then some last else none

/-- The head after the handle of a tag: an exclamation mark and a tag's handle. -/
def handle (h : Head) : Option Head :=
  match h.rest with
  | '!' :: cs => (Lexeme.handleLength? cs).map fun length => h.steps (length + 1)
  | _ => none

def tagPrefix (h : Head) : Option Head :=
  match h.rest with
  | '!' :: cs => some (h.steps (1 + Lexeme.escapedLength isUriChar cs))
  | cs =>
    match Lexeme.escapedLength isTagChar (cs.take 3) with
    | 0 => none
    | _ => some (h.steps (Lexeme.escapedLength isUriChar cs))

def word (h : Head) : Option Head :=
  if h.rest.head?.any isPrintable then some (h.stepsWhile isPrintable) else none

def next (kind : Kind) (piece : Head → Option Head) (h : Head) : Option (Node × Head) := do
  let (gap, start) := h.skip
  let comment := start.rest.head? == some '#' && start.mark.offset != h.mark.offset
  if gap.crossed || comment then none
  else
    let last ← piece start
    pure (start.node kind last [], last)

def parameters : Nat → Head → List Node × Head
  | 0, h => ([], h)
  | fuel + 1, h =>
    match next .directiveParameter word h with
    | none => ([], h)
    | some (first, after) =>
      let (more, last) := parameters fuel after
      (first :: more, last)

def read (h : Head) : Option (Node × Head) := do
  let name ← Lexeme.directiveName h
  let text := String.ofList (h.step.textTo name)
  if text = "YAML" then
    let (number, last) ← next .yamlVersion version name
    pure (h.node .yamlDirective last [number], last)
  else if text = "TAG" then
    let (first, after) ← next .tagHandle handle name
    let (second, last) ← next .tagPrefix tagPrefix after
    pure (h.node .tagDirective last [first, second], last)
  else
    let (more, last) := parameters h.rest.length name
    pure (h.node .reservedDirective last (h.node .directiveName name [] :: more), last)

end Directive

namespace Stream

open Expected

inductive Phase where
  | start
  /-- Anything, on a line of its own: the last document has an end marker. -/
  | ended
  /-- A marker: the last document is a start marker alone. -/
  | opened
  /-- A start marker: the last document has no end marker. -/
  | read
  deriving DecidableEq, Repr

def spot : Phase → Block.Spot
  | .start => { compact := true }
  | .ended => { beside := false }
  | _ => {}

def between (phase : Phase) : Expected :=
  let markers (ss : List Symbol) : Expected := symbols (ss ++ [.documentStart, .endOfText]) [.margin]
  match phase with
  | .start => either (markers [.directive, .documentEnd]) (Block.values (spot phase))
  | .ended => either (markers [.directive, .documentEnd]) (Block.values (spot phase))
  | .opened => either (markers []) (Block.values (spot phase))
  | .read => markers []

def afterContent : Expected := symbols [.documentStart, .documentEnd, .endOfText] [.margin]

def document (start stop : Mark) (parts : List Node) : Node :=
  { kind := .document, start, stop, children := parts }

/-- What was read of a stream: its documents with the comments between them, and the state after them. -/
structure Documents where
  nodes : List Node := []
  reading : Reading

/-- Reads the end marker of a document after its content, with the comments before it, if there is one;
else the document leaves the stream in a phase. -/
def finish (phase : Phase) (start : Mark) (parts : List Node) (r : Reading) : Phase × Node × Reading :=
  let next := r.ahead false afterContent
  match next.at? .documentEnd with
  | some t => (.ended, document start t.after.head.mark (parts ++ next.comments), t.after)
  | none => (phase, document start r.head.mark parts, r)

def contents (start : Mark) (parts : List Node) (r : Reading) :
    Except Break (Phase × Node × Reading) :=
  match Block.value? (spot .opened) afterContent (Flow.fuel r) r with
  | .ok (none, _) => .ok (finish .opened start parts r)
  | .ok (some (comments, inner), after) => .ok (finish .read start (parts ++ comments ++ [inner]) after)
  | .error b => .error (b.within parts r.head.mark)

/-- Reads directives with the comments around them, up to the start marker of their document. -/
def directives : Nat → Reading → Except Break (List Node × Token)
  | 0, _ => .error {}
  | fuel + 1, r =>
    let next := r.ahead false (symbols [.directive, .documentStart] [.margin])
    match next.when fun _ => true with
    | none => .error next.toBreak
    | some t =>
      if t.symbol = .documentStart then .ok (next.comments, t)
      else match Directive.read t.start with
        | none => .error next.toBreak
        | some (first, last) =>
          match directives fuel { t.after with head := last } with
          | .ok (more, marker) => .ok (next.comments ++ first :: more, marker)
          | .error b => .error (b.within (next.comments ++ [first]) first.stop)

/-- The documents and comments of a stream where the last document may still go on: its parts instead of
it, unless it has an end marker. -/
def openLast (phase : Phase) (nodes : List Node) : List Node :=
  match phase, nodes.getLast? with
  | .opened, some last => nodes.dropLast ++ last.children
  | .read, some last => nodes.dropLast ++ last.children
  | _, _ => nodes

def one (phase : Phase) (t : Token) (r : Reading) : Except Break (Phase × Node × Reading) :=
  match t.symbol with
  | .documentStart => contents t.start.mark [] t.after
  | .documentEnd => .ok (.ended, document t.start.mark t.after.head.mark [], t.after)
  | .directive => do
    let (parts, marker) ← directives (t.start.rest.length + 1) r
    contents t.start.mark parts marker.after
  | _ =>
    match Block.value (spot phase) afterContent (Flow.fuel r) t with
    | .ok (inner, after) => .ok (finish .read t.start.mark [inner] after)
    | .error b => .error (b.within [] t.start.mark)

def documents : Nat → Phase → List Node → Reading → Except Break Documents
  | 0, _, _, _ => .error {}
  | fuel + 1, phase, before, r =>
    let next := r.ahead false (between phase)
    let nodes := before ++ next.comments
    match next.when fun _ => true with
    | none => .error { next.toBreak with complete := openLast phase before ++ next.comments }
    | some t =>
      if t.symbol = .endOfText then .ok ⟨nodes, t.after⟩
      else match one phase t next.reading with
        | .ok (phase, first, after) => documents fuel phase (nodes ++ [first]) after
        | .error b => .error (b.within nodes next.reading.head.mark)

end Stream

namespace Grammar

/-- The place of the first token or comment of a text; its end if there is none. -/
def firstMark (source : List Char) : Mark :=
  (Head.ofText source).skip.2.mark

def stream (source : List Char) : Except Break Node :=
  let reading : Reading := { head := Head.ofText source }
  (Stream.documents (source.length + 2) .start [] reading).map fun read =>
    { kind := .stream, start := firstMark source, stop := read.reading.head.mark, children := read.nodes }

def partCount (source : List Char) (document : Node) : Nat :=
  let text := Text.slice source document.start.offset document.stop.offset
  let parts := document.children.filter (·.kind != .comment)
  let hasStart := ({ rest := text : Head }).markerAhead '-' || parts.any (·.kind.isDirective)
  let hasEnd := document.stop.column = 3 && text.drop (text.length - 3) == ['.', '.', '.']
  parts.length + hasStart.toNat + hasEnd.toNat

/-- How much a stream holds: a point for each byte, 30 for each row and 100 for each document, or for each part of
the only one. -/
def weight (source : List Char) (stream : Node) : Nat :=
  let count := match stream.children.filter (·.kind = .document) with
    | [document] => partCount source document
    | documents => documents.length
  stream.stop.offset - stream.start.offset + 30 * (stream.stop.row - stream.start.row) + 100 * count

/-- The least weight of a stream that is kept where a text is cut off. -/
def keptWeight : Nat := 110

/-- The stream of the text before a break, where the text is cut off: a value could start there but does not, the
text before it is well formed, and it weighs enough. -/
def cut? (source : List Char) (b : Break) : Option Node := do
  let stop ← b.stop.filter fun _ => b.isRefused
  let before := Text.slice source 0 stop.offset
  (stream before).toOption.filter fun root => keptWeight ≤ weight before root

def broken (source : List Char) (b : Break) : Node :=
  let start := firstMark source
  let stop := b.stop.getD start
  { kind := .error, start, stop := if stop.offset < start.offset then start else stop, children := b.complete }

def strict : Grammar where
  root source := match stream source with
    | .ok root => root
    | .error b => (cut? source b).getD (broken source b)

end Grammar

end PipelineLint.Yaml
