import PipelineLint.Concrete.Grammar.Flow

/-! # Values in block position

Values whose structure is given by indentation. A block collection ends where a line is indented less
than its entries, or with the document; comments belong to the innermost collection that is open. A
collection that ends with the text extends to the end of the text, any other to the end of its last
entry or comment.
-/

namespace PipelineLint.Yaml.Block

open Expected

structure Spot where
  /-- A collection may start on the line of what comes before. -/
  compact : Bool := false
  /-- The items of a sequence may stand in the column of the mapping around them. -/
  items : Bool := false
  /-- The value may start on the line of what comes before. -/
  beside : Bool := true
  deriving DecidableEq, Repr, Inhabited

def valueStyle : FlowStyle := {}

def keyStyle : FlowStyle := { oneLine := true }

def indicators : List Symbol := [.dash, .question, .colon]

/-- The tokens that start the items of a sequence in the column of the mapping around it. -/
def levelItems (spot : Spot) : Expected :=
  if spot.items then symbols [.dash] [.level] else symbols [] []

def values (spot : Spot) : Expected :=
  let starts : List Symbol := .header :: Flow.valueSymbols valueStyle
  let beside :=
    if spot.beside then
      symbols (if spot.compact then indicators ++ starts else starts) [.beside]
    else symbols [] []
  either beside (either (symbols (indicators ++ starts) [.deeper]) (levelItems spot))

/-- The tokens that start an entry of an open mapping. -/
def keys : Expected := symbols (.question :: .colon :: Flow.valueSymbols keyStyle) [.level]

def closing : Expected := symbols [.dedent] [.margin]

/-- The tokens that follow an entry of a mapping. -/
def afterPair : Expected := either keys closing

def afterItem : Expected := either (symbols [.dash] [.level]) closing

def keyColon : Expected := symbols [.keyColon] [.beside]

/-- The node that holds a collection or block scalar with its anchor and tag. -/
def hold (parts : List Node) (inner : Node) : Node :=
  { kind := .blockNode, start := (parts.head?.getD inner).start, stop := inner.stop,
    children := parts ++ [inner] }

/-- The anchor or tag after another one on its line. -/
def secondProperty (first : Token) : Option Token :=
  let other : Symbol := if first.symbol = .anchor then .tag else .anchor
  (first.after.ahead false (symbols [other] [.beside])).at? other

/-- The anchor and tag on a line, from the first of them on, and the state after them. -/
def lineProperties (first : Token) : List Node × Reading :=
  match secondProperty first with
  | some second => ([Flow.single first, Flow.single second], second.after)
  | none => ([Flow.single first], first.after)

/-- Anchors and tags that can belong to one value: none occurs twice. -/
def compatible (parts : List Node) : Bool :=
  decide ((parts.filter (·.kind = .anchor)).length ≤ 1) &&
    decide ((parts.filter (·.kind = .tag)).length ≤ 1)

/-- Reads a block scalar after its header: its lines, and a comment beside the header. -/
def scalarLines : Nat → Reading → Except Break (List Node × Reading)
  | 0, _ => .error {}
  | fuel + 1, r =>
    let next := r.ahead false (either (symbols [.content] [.deeper]) closing)
    match next.when fun _ => true with
    | none => .error next.toBreak
    | some t =>
      if t.symbol = .dedent then .ok (next.comments, t.after)
      else do
        let (more, last) ← scalarLines fuel t.after
        pure (next.comments ++ more, last)

def scalar (t : Token) : Except Break (Node × Reading) :=
  match scalarLines (t.start.rest.length + 1) t.after with
  | .ok (comments, after) => .ok (t.start.node .blockScalar after.head comments, after)
  | .error b => .error (b.within [] t.after.head.mark)

/-- A value with the anchor, tag and comments on the lines before it. -/
def join (outer : List Node) (node : Node) : Node :=
  match outer with
  | [] => node
  | first :: _ => Flow.hold (outer ++ node.children) first.start node.stop

def afterEntry : BlockKind → Expected
  | .sequence => afterItem
  | _ => afterPair

/-- What may stand after a dash, after a question mark and after the colon below one. -/
def entrySpot (kind : BlockKind) : Spot :=
  { compact := true, items := kind != .sequence }

def keySpot : Spot := { items := true }

/-- The tokens that follow the anchors and tags of a value: those that belong to it, where it may be
something else than a key. -/
def ownedTail (spot : Spot) (whole : Bool) : Expected :=
  let besides := symbols (Flow.contentSymbols valueStyle) [.beside]
  if whole then
    either besides (either (symbols [.header] [.beside])
      (values { spot with beside := false }))
  else besides

mutual
/-- Reads the value after a colon, a dash, a question mark or the start of a document, with the comments
before it. There may be none; then the state stays. -/
def value? (spot : Spot) (follow : Expected) :
    Nat → Reading → Except Break (Option (List Node × Node) × Reading)
  | 0, _ => .error {}
  | fuel + 1, r =>
    let next := r.ahead false (either (values spot) follow)
    match next.when fun t => values spot t.symbol t.place with
    | none => .ok (none, r)
    | some t =>
      match value spot follow fuel t with
      | .ok (inner, after) => .ok (some (next.comments, inner), after)
      | .error b => .error (b.within next.comments t.after.head.mark)
termination_by structural fuel => fuel
def value (spot : Spot) (follow : Expected) : Nat → Token → Except Break (Node × Reading)
  | 0, _ => .error {}
  | fuel + 1, t =>
    let keyable := spot.compact || t.place = .deeper
    match t.symbol with
    | .anchor => owned spot follow keyable true [] (lineProperties t).1 fuel (lineProperties t).2
    | .tag => owned spot follow keyable true [] (lineProperties t).1 fuel (lineProperties t).2
    | _ => unowned follow keyable true [] fuel t
termination_by structural fuel => fuel
/-- Reads on after anchors and tags: `inner` those on the last line, which may belong to a key, and
`outer` those on the lines before, with the comments between them. A value that is not `whole` has to be
a key, because no value has all of them. -/
def owned (spot : Spot) (follow : Expected) (keyable whole : Bool) (outer inner : List Node) :
    Nat → Reading → Except Break (Node × Reading)
  | 0, _ => .error {}
  | fuel + 1, r =>
    let start := (inner.head?.map (·.start)).getD r.head.mark
    let bare := Flow.hold inner start r.head.mark
    let own := either (ownedTail spot whole) (if keyable then keyColon else symbols [] [])
    let next := r.ahead false (if whole then either own follow else own)
    let above := outer ++ inner ++ next.comments
    match next.when fun t => own t.symbol t.place with
    | none =>
      if whole then .ok (join outer bare, { r with isRefused := next.isRefused }) else .error next.toBreak
    | some t =>
      if t.symbol = .keyColon then mappingFrom outer bare fuel t
      else if t.symbol = .anchor || t.symbol = .tag then
        let (further, after) := lineProperties t
        owned spot follow true (compatible (above ++ further)) above further fuel after
      else if t.place = .beside && t.symbol != .header then
        match Flow.content valueStyle (Flow.fuel t.after) t with
        | .ok (content, after) =>
          keyOrValue follow keyable whole outer (Flow.hold (inner ++ [content]) start content.stop)
            fuel t.start after
        | .error b => .error (b.within above t.after.head.mark)
      else match unowned follow true true above fuel t with
        | .ok result => .ok result
        | .error b => .error (b.within above t.after.head.mark)
termination_by structural fuel => fuel
/-- Reads a value without anchor and tag on its own line, from its first token on; `outer` are those on
the lines before. -/
def unowned (follow : Expected) (keyable whole : Bool) (outer : List Node) :
    Nat → Token → Except Break (Node × Reading)
  | 0, _ => .error {}
  | fuel + 1, t =>
    match t.symbol with
    | .dash => collection .sequence outer fuel t
    | .question => collection .mapping outer fuel t
    | .colon => collection .mapping outer fuel t
    | .header => do
      let (inner, after) ← scalar t
      pure (hold outer inner, after)
    | .alias =>
      let node := Flow.hold [Flow.single t] t.start.mark t.after.head.mark
      keyOrValue follow keyable (whole && outer.isEmpty) outer node fuel t.start t.after
    | _ => do
      let (inner, after) ← Flow.content valueStyle (Flow.fuel t.after) t
      keyOrValue follow keyable whole outer (Flow.hold [inner] inner.start inner.stop) fuel t.start after
termination_by structural fuel => fuel
/-- Reads on after a node that is the first key of a mapping if a colon follows it on its line, and else
a value if it can be `whole`. -/
def keyOrValue (follow : Expected) (keyable whole : Bool) (outer : List Node) (node : Node) :
    Nat → Head → Reading → Except Break (Node × Reading)
  | 0, _, _ => .error {}
  | fuel + 1, start, r =>
    let next := r.ahead false
      (if keyable && start.line = r.head.line then either keyColon follow else follow)
    match next.at? .keyColon with
    | some colon => mappingFrom outer node fuel colon
    | none => if whole then .ok (join outer node, r) else .error next.toBreak
termination_by structural fuel => fuel
def mappingFrom (parts : List Node) (key : Node) : Nat → Token → Except Break (Node × Reading)
  | 0, _ => .error {}
  | fuel + 1, colon => do
    let (first, r) ← pairRest keySpot fuel key.start (some key) [] colon
    match entries .mapping fuel r with
    | .ok (more, after) =>
      let inner : Node :=
        { kind := .blockMapping, start := key.start, stop := after.head.mark, children := first :: more }
      pure (hold parts inner, after)
    | .error b => .error (b.within [first] first.stop)
termination_by structural fuel => fuel
def collection (kind : BlockKind) (parts : List Node) : Nat → Token → Except Break (Node × Reading)
  | 0, _ => .error {}
  | fuel + 1, t => do
    let (first, r) ← entry fuel t
    match entries kind fuel r with
    | .ok (more, after) =>
      let kind : Kind := if kind = .sequence then .blockSequence else .blockMapping
      pure (hold parts (t.start.node kind after.head (first :: more)), after)
    | .error b => .error (b.within [first] first.stop)
termination_by structural fuel => fuel
/-- Reads the entries of a collection after its first, with the comments between them, up to its end. -/
def entries (kind : BlockKind) : Nat → Reading → Except Break (List Node × Reading)
  | 0, _ => .error {}
  | fuel + 1, r =>
    let next := r.ahead false (afterEntry kind)
    match next.when fun _ => true with
    | none => .error next.toBreak
    | some t =>
      if t.symbol = .dedent then .ok (next.comments, t.after)
      else match entry fuel t with
        | .error b => .error (b.within next.comments t.after.head.mark)
        | .ok (first, after) =>
          match entries kind fuel after with
          | .ok (more, last) => .ok (next.comments ++ first :: more, last)
          | .error b => .error (b.within (next.comments ++ [first]) first.stop)
termination_by structural fuel => fuel
def entry : Nat → Token → Except Break (Node × Reading)
  | 0, _ => .error {}
  | fuel + 1, t =>
    match t.symbol with
    | .dash => item fuel t
    | .question => explicitPair fuel t
    | .colon => pairRest (entrySpot .mapping) fuel t.start.mark none [] t
    | _ => do
      let (key, r) ← Flow.value keyStyle keyColon (Flow.fuel t.after) t
      let next := r.ahead false keyColon
      match next.at? .keyColon with
      | none => .error (next.toBreak.within [key] key.stop)
      | some colon => pairRest keySpot fuel key.start (some key) [] colon
termination_by structural fuel => fuel
def item : Nat → Token → Except Break (Node × Reading)
  | 0, _ => .error {}
  | fuel + 1, dash => do
    match ← value? (entrySpot .sequence) afterItem fuel dash.after with
    | (none, r) => pure (dash.node .blockSequenceItem [], r)
    | (some (comments, inner), r) =>
      let node : Node :=
        { kind := .blockSequenceItem, start := dash.start.mark, stop := inner.stop,
          children := comments ++ [inner] }
      pure (node, r)
termination_by structural fuel => fuel
def explicitPair : Nat → Token → Except Break (Node × Reading)
  | 0, _ => .error {}
  | fuel + 1, t => do
    let (key, r) ← value? (entrySpot .mapping) afterPair fuel t.after
    let before := (key.map fun (comments, key) => comments ++ [{ key with role := .key }]).getD []
    let next := r.ahead false afterPair
    match next.at? .colon with
    | some colon => pairRest (entrySpot .mapping) fuel t.start.mark none (before ++ next.comments) colon
    | none => pure (Flow.pair .blockMappingPair t.start.mark r.head.mark none before none, r)
termination_by structural fuel => fuel
def pairRest (spot : Spot) :
    Nat → Mark → Option Node → List Node → Token → Except Break (Node × Reading)
  | 0, _, _, _, _ => .error {}
  | fuel + 1, start, key, before, colon =>
    match value? spot afterPair fuel colon.after with
    | .ok (none, r) =>
      .ok (Flow.pair .blockMappingPair start colon.after.head.mark key before none, r)
    | .ok (some (comments, inner), r) =>
      .ok (Flow.pair .blockMappingPair start inner.stop key (before ++ comments) (some inner), r)
    | .error b => .error (b.within (key.toList ++ before) colon.after.head.mark)
termination_by structural fuel => fuel
end

end PipelineLint.Yaml.Block
