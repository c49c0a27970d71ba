import PipelineLint.Yaml.Anchors
import PipelineLint.Yaml.ScalarText

/-! # Views

A view reads a tree as data: block style and flow style look the same, aliases lead to the values they
stand for, and merge keys `<<` bring in the pairs of other mappings. What is absent is `none`.
-/

namespace PipelineLint.Yaml

def mergeKey : String := "<<"

/-- The number of steps, down to a value or over an alias, after which a value counts as unreachable. -/
def maxAliasSteps : Nat := 32

structure View where
  tree : Tree
  values : NameMap Node
  /-- The number of nodes of the values of all anchors. -/
  size : Nat := Node.sizeAll values.values
  size_eq : size = Node.sizeAll values.values := by rfl
  deriving Repr

structure Pair where
  node : Node
  key : Option Node
  /-- The value as written, perhaps an alias. -/
  rawValue : Option Node
  value : Option Node
  deriving Repr, Inhabited

structure Item where
  /-- The item with its dash, or the value itself in flow style. -/
  node : Node
  rawValue : Option Node
  value : Option Node
  deriving Repr, Inhabited

namespace Pair

def range (p : Pair) : Range := p.node.range

def keyRange (p : Pair) : Range := (p.key.map Node.range).getD p.range

def valueRange? (p : Pair) : Option Range := p.rawValue.map Node.range

def valueOrPairRange (p : Pair) : Range := p.valueRange?.getD p.range

/-- The place of the pair; without a value it reaches to the end of the line. -/
def openRange (p : Pair) : Range :=
  if p.rawValue.isSome then p.range else p.range.toLineEnd

/-- The place after a pair, to the end of its line. -/
def afterRange (p : Pair) : Range := Range.toLineEnd ⟨p.range.stop, p.range.stop⟩

end Pair

namespace Item

def range (i : Item) : Range := i.node.range

/-- The place right after the dash of an item. -/
def markerRange (i : Item) : Range :=
  let start := i.node.start
  Range.ofCoordinates start.row (start.column + 1) start.row (start.column + 2)

end Item

namespace View

def ofAnchors (t : Tree) (anchors : Anchors) : View := { tree := t, values := anchors.values }

def ofTree (t : Tree) : View := .ofAnchors t (.ofTree t)

variable (v : View)

def rawText (n : Node) : List Char := v.tree.textOf n

def nameOfAlias (n : Node) : String := aliasName v.tree n

/-- The node beside anchors, tags and comments. -/
def inner? (n : Node) : Option Node :=
  n.namedChildren.find? fun c => c.kind != .anchor && c.kind != .tag && c.kind != .comment

def contentWithin : Nat → Node → Option Node
  | 0, _ => none
  | steps + 1, n =>
    match n.kind with
    | .blockNode | .flowNode => (inner? n).bind (contentWithin steps)
    | .alias => (v.values.get? (v.nameOfAlias n)).bind (contentWithin steps)
    | _ => some n

/-- The mapping, sequence or scalar that a value holds, through aliases. -/
def content? (n : Node) : Option Node := v.contentWithin (maxAliasSteps + 1) n

def aliasOf? (n : Node) : Option Node :=
  match n.kind with
  | .alias => some n
  | .flowNode | .blockNode => n.child? .alias
  | _ => none

def isAlias (n : Node) : Bool := (aliasOf? n).isSome

/-- Follows aliases for a number of steps. -/
def resolveWithin : Nat → Node → Node
  | 0, n => n
  | steps + 1, n =>
    match aliasOf? n with
    | none => n
    | some a =>
      match v.values.get? (v.nameOfAlias a) with
      | some target => resolveWithin steps target
      | none => n

/-- The value that is meant by a value as written. -/
def resolve (n : Node) : Node := v.resolveWithin maxAliasSteps n

def mapping? (n : Node) : Option Node := (v.content? n).filter (·.kind.isMapping)

def sequence? (n : Node) : Option Node := (v.content? n).filter (·.kind.isSequence)

def scalar? (n : Node) : Option Node := (v.content? n).filter (·.kind.isScalar)

/-- The characters of a value: of a scalar what it stands for, of anything else what is written. -/
def characters (n : Node) : List Char :=
  match v.content? n with
  | none => []
  | some content =>
    let raw := v.rawText content
    match content.kind with
    | .doubleQuoteScalar => ScalarText.doubleQuoted raw
    | .singleQuoteScalar => ScalarText.singleQuoted raw
    | .blockScalar => ScalarText.block raw
    | _ => Text.trim raw

def text (n : Node) : String := String.ofList (v.characters n)

def textOrEmpty (n : Option Node) : String := (n.map v.text).getD ""

/-- The text of a value with the place of the value. -/
def located (n : Node) : Located := ⟨v.text n, n.range⟩

def pair? (n : Node) : Option Pair :=
  if n.kind.isPair then some ⟨n, n.key?, n.value?, n.value?.map v.resolve⟩ else none

def keyText (p : Pair) : String := v.textOrEmpty p.key

/-- The pairs written in a mapping, merges included. -/
def directPairs (n : Node) : List Pair :=
  match v.mapping? n with
  | some mapping => mapping.children.filterMap v.pair?
  | none => []

def item? (n : Node) : Option Item :=
  match n.kind with
  | .blockSequenceItem =>
    let raw := n.children.find? (·.kind.isHolder)
    some ⟨n, raw, raw.map v.resolve⟩
  | .flowNode | .flowPair => some ⟨n, some n, some (v.resolve n)⟩
  | _ => none

def items (n : Node) : List Item :=
  match v.sequence? n with
  | some sequence => sequence.children.filterMap v.item?
  | none => []

/-- The mappings that a merge brings in: one, or those of a sequence in order. -/
def mergeSources (value : Node) : List Node :=
  match v.mapping? value with
  | some mapping => [mapping]
  | none => (v.items value).filterMap fun i => i.value.bind v.mapping?

/-- The mappings that the merges of a mapping bring in, in order. -/
def merged (mapping : Node) : List Node :=
  ((v.directPairs mapping).filter fun p => v.keyText p == mergeKey).flatMap fun p =>
    (p.value.map v.mergeSources).getD []

/-- The value of a merge is a mapping or a sequence of mappings. -/
def isMergeValue (value : Node) : Bool :=
  (v.mapping? value).isSome ||
    ((v.sequence? value).isSome && (v.items value).all fun i => (i.value.bind v.mapping?).isSome)

/-- The state of a walk over a mapping and the mappings it merges: the keys met, the mappings entered,
and the pairs met, in order. -/
structure Visit where
  keys : List String := []
  entered : List Nat := []
  pairs : List Pair := []
  deriving Repr, Inhabited

/-- Visits a mapping and then the mappings it merges. A merged mapping contributes the pairs whose keys
were not met before it was entered; a mapping that was entered before is passed over. -/
def visit : Nat → Bool → Node → Visit → Visit
  | 0, _, _, s => s
  | fuel + 1, isRoot, n, s =>
    match v.mapping? n with
    | none => s
    | some mapping =>
      if s.entered.contains mapping.id then s
      else
        let own := (v.directPairs mapping).filter fun p =>
          v.keyText p != mergeKey && (isRoot || !s.keys.contains (v.keyText p))
        let entered : Visit :=
          ⟨s.keys ++ own.map v.keyText, mapping.id :: s.entered, s.pairs ++ own⟩
        (v.merged mapping).foldl (fun s source => visit fuel false source s) entered

/-- The pairs of a mapping with merges expanded: first its own, then those of each merged mapping in the
order that the merges list them, where own keys and earlier mappings hide later ones. No mapping is
entered twice, so mappings are entered in each other at most as often as there are nodes. -/
def pairs (n : Node) : List Pair := (v.visit (n.size + v.size + 1) true n {}).pairs

def find? (n : Node) (key : String) : Option Pair :=
  (v.pairs n).find? fun p => v.keyText p == key

/-- The value of the first pair with a key. -/
def field? (n : Node) (key : String) : Option Node :=
  (v.find? n key).bind (·.value)

def texts (n : Node) : List Located :=
  (v.items n).map fun i => match i.value with
    | some value => ⟨v.text value, i.range⟩
    | none => ⟨"", i.markerRange⟩

/-- The texts of a sequence, or the text of a single value. -/
def textOrTexts (n : Node) : List String :=
  if (v.sequence? n).isSome then (v.texts n).map (·.text) else [v.text n]

/-- The texts of a sequence, or the text of a single value, with their places. -/
def locatedTexts (n : Node) : List Located :=
  if (v.sequence? n).isSome then v.texts n else [v.located n]

end View

/-- The value of the first document of a tree. -/
def Tree.top? (t : Tree) : Option Node := do
  let document ← t.root.children.find? (·.kind = .document)
  document.children.find? (·.kind.isHolder)

/-- The value of the first document of a tree, or its root. -/
def Tree.top (t : Tree) : Node := t.top?.getD t.root

end PipelineLint.Yaml
