import PipelineLint.Concrete.Grammar.Token

/-! # Values in flow position

Values written with brackets, braces, quotes or nothing around them. Further lines of a value stand right
of the column of the block around it; a closing bracket or brace may also stand in that column. A comment
belongs to the construct that goes on after it.
-/

namespace PipelineLint.Yaml.Flow

open Expected

/-- The places of the tokens of a value after its first. -/
def places (style : FlowStyle) : List Place :=
  if style.oneLine then [.beside] else [.beside, .deeper]

/-- The symbols that start a value without anchor and tag. -/
def contentSymbols (style : FlowStyle) : List Symbol :=
  let scalars : List Symbol := if style.oneLine then [.line] else [.line, .lines]
  scalars ++ [.doubleQuote, .singleQuote, .openSequence, .openMapping]

def propertySymbols : List Symbol := [.anchor, .tag]

def valueSymbols (style : FlowStyle) : List Symbol :=
  .alias :: propertySymbols ++ contentSymbols style

def values (style : FlowStyle) : Expected := symbols (valueSymbols style) (places style)

def closing (style : FlowStyle) (symbol : Symbol) : Expected :=
  symbols [symbol] (if style.oneLine then [.beside] else [.beside, .deeper, .level])

def ending (style : FlowStyle) (close : Symbol) : Expected :=
  either (symbols [.comma] (places style)) (closing style close)

/-- The colons that make a value a key: after a quoted text or a collection the colon may touch what
follows it. -/
def keyColon (style : FlowStyle) (key : Option Node) : Expected :=
  let json := (key.bind (·.children.getLast?)).any fun content =>
    content.kind = .doubleQuoteScalar || content.kind = .singleQuoteScalar ||
      content.kind = .flowMapping || content.kind = .flowSequence
  symbols [if json then .jsonColon else .flowColon] (places style)

def named (t : Token) (kind nameKind : Kind) : Node :=
  t.node kind [t.start.step.node nameKind t.after.head []]

def single (t : Token) : Node :=
  match t.symbol with
  | .alias => named t .alias .aliasName
  | .anchor => named t .anchor .anchorName
  | _ => t.node .tag []

/-- The node that holds a value with its anchor and tag, from its first part to its last. -/
def hold (parts : List Node) (start stop : Mark) : Node :=
  { kind := .flowNode, start, stop, children := parts }

def pair (kind : Kind) (start stop : Mark) (key : Option Node) (between : List Node)
    (value : Option Node) : Node :=
  { kind, start, stop,
    children := (key.map ({ · with role := .key })).toList ++ between ++
      (value.map ({ · with role := .value })).toList }

/-- Reads the rest of a quoted text after its opening quote. -/
def quoted (style : FlowStyle) (t : Token) : Except Break (Node × Reading) := do
  let h := t.after.head
  let fuel := h.rest.length + 1
  let double := t.symbol = .doubleQuote
  let (escapes, last) ←
    if double then Lexeme.doubleQuoted style t.after.floor fuel h
    else Lexeme.singleQuoted style t.after.floor fuel h
  let kind : Kind := if double then .doubleQuoteScalar else .singleQuoteScalar
  pure (t.start.node kind last escapes, { t.after with head := last })

mutual
/-- Reads what a value consists of beside its anchor and tag, from its first token on. -/
def content (style : FlowStyle) : Nat → Token → Except Break (Node × Reading)
  | 0, _ => .error {}
  | fuel + 1, t =>
    match t.symbol with
    | .doubleQuote => quoted style t
    | .singleQuote => quoted style t
    | .openSequence => collection style .flowSequence .closeSequence fuel t
    | .openMapping => collection style .flowMapping .closeMapping fuel t
    | _ =>
      let value := t.node (Lexeme.plainKind t.start t.after.head) []
      .ok (t.node .plainScalar [value], t.after)
def value (style : FlowStyle) (follow : Expected) : Nat → Token → Except Break (Node × Reading)
  | 0, _ => .error {}
  | fuel + 1, t =>
    match t.symbol with
    | .alias => .ok (hold [single t] t.start.mark t.after.head.mark, t.after)
    | .anchor => owned style follow [single t] [.tag] fuel t.after
    | .tag => owned style follow [single t] [.anchor] fuel t.after
    | _ => do
      let (inner, after) ← content style fuel t
      pure (hold [inner] inner.start inner.stop, after)
/-- Reads the rest of a value that starts with an anchor or a tag; `further` are the symbols that may
still follow before its content. -/
def owned (style : FlowStyle) (follow : Expected) (parts : List Node) (further : List Symbol) :
    Nat → Reading → Except Break (Node × Reading)
  | 0, _ => .error {}
  | fuel + 1, r =>
    let start := (parts.head?.map (·.start)).getD r.head.mark
    let own := symbols (further ++ contentSymbols style) (places style)
    let next := r.ahead style.nested (either own follow)
    match next.when fun t => own t.symbol t.place with
    | none => .ok (hold parts start r.head.mark, r)
    | some t =>
      let parts := parts ++ next.comments
      if further.contains t.symbol then owned style follow (parts ++ [single t]) [] fuel t.after
      else match content style fuel t with
        | .ok (inner, after) => .ok (hold (parts ++ [inner]) start inner.stop, after)
        | .error b => .error (b.within parts t.after.head.mark)
def collection (style : FlowStyle) (kind : Kind) (close : Symbol) :
    Nat → Token → Except Break (Node × Reading)
  | 0, _ => .error {}
  | fuel + 1, t => do
    let (items, after) ← entries { style with nested := true } close fuel t.after
    pure (t.start.node kind after.head items, after)
/-- Reads the entries of a collection and its closing bracket, with the comments between them. -/
def entries (style : FlowStyle) (close : Symbol) : Nat → Reading → Except Break (List Node × Reading)
  | 0, _ => .error {}
  | fuel + 1, r =>
    let starts := either (symbols [.flowQuestion] (places style))
      (either (keyColon style none) (values style))
    let next := r.ahead true (either starts (closing style close))
    match next.when fun _ => true with
    | none => .error next.toBreak
    | some t =>
      if t.symbol = close then .ok (next.comments, t.after)
      else match entry style close fuel t with
        | .error b => .error (b.within next.comments t.after.head.mark)
        | .ok (first, after) =>
          let further := after.ahead true (ending style close)
          let nodes := next.comments ++ first :: further.comments
          match further.when fun _ => true with
          | none => .error { further.toBreak with complete := nodes }
          | some t =>
            if t.symbol = close then .ok (nodes, t.after)
            else match entries style close fuel t.after with
              | .ok (more, last) => .ok (nodes ++ more, last)
              | .error b => .error (b.within nodes t.after.head.mark)
def entry (style : FlowStyle) (close : Symbol) : Nat → Token → Except Break (Node × Reading)
  | 0, _ => .error {}
  | fuel + 1, t =>
    match t.symbol with
    | .flowColon => pairValue style close fuel t.start.mark none [] t
    | .flowQuestion =>
      let follow := either (keyColon style none) (ending style close)
      let next := t.after.ahead true (either (values style) follow)
      match next.when fun key => values style key.symbol key.place with
      | some key =>
        match value style (either (keyColon style none)
            (ending style close)) fuel key with
        | .ok (node, after) => keyed style close fuel t.start.mark next.comments node after
        | .error b => .error (b.within next.comments t.after.head.mark)
      | none =>
        match next.at? .flowColon with
        | some colon => pairValue style close fuel t.start.mark none next.comments colon
        | none => .ok (t.node .flowPair [], t.after)
    | _ =>
      match value style (either (keyColon style none)
          (ending style close)) fuel t with
      | .error b => .error b
      | .ok (node, after) =>
        let next := after.ahead true (either (keyColon style (some node)) (ending style close))
        match next.when fun colon => keyColon style (some node) colon.symbol colon.place with
        | some colon => pairValue style close fuel t.start.mark (some node) next.comments colon
        | none => .ok (node, after)
/-- Reads the rest of a pair after its question mark and its key. -/
def keyed (style : FlowStyle) (close : Symbol) :
    Nat → Mark → List Node → Node → Reading → Except Break (Node × Reading)
  | 0, _, _, _, _ => .error {}
  | fuel + 1, start, before, key, r =>
    let next := r.ahead true (either (keyColon style (some key)) (ending style close))
    let node := { key with role := .key }
    match next.when fun colon => keyColon style (some key) colon.symbol colon.place with
    | some colon =>
      pairValue style close fuel start none (before ++ node :: next.comments) colon
    | none => .ok (pair .flowPair start key.stop none (before ++ [node]) none, r)
def pairValue (style : FlowStyle) (close : Symbol) :
    Nat → Mark → Option Node → List Node → Token → Except Break (Node × Reading)
  | 0, _, _, _, _ => .error {}
  | fuel + 1, start, key, before, colon =>
    let next := colon.after.ahead true (either (values style) (ending style close))
    match next.when fun t => values style t.symbol t.place with
    | none =>
      .ok (pair .flowPair start colon.after.head.mark key before none, colon.after)
    | some t =>
      let between := before ++ next.comments
      match value style (ending style close) fuel t with
      | .ok (inner, after) => .ok (pair .flowPair start inner.stop key between (some inner), after)
      | .error b => .error (b.within (key.toList ++ between) colon.after.head.mark)
end

/-- The steps that reading the rest of a text can take: some for each character. -/
def fuel (r : Reading) : Nat := 8 * r.head.rest.length + 16

end PipelineLint.Yaml.Flow
