import PipelineLint.Yaml.Tree
import PipelineLint.Yaml.Cursor
import PipelineLint.NameMap

/-! # Anchors

An anchor names the value it stands before; an alias stands for the value that its name was given to.
`Anchors.ofTree` collects both from a whole tree: of several anchors with one name the last counts, for
every alias of the tree.
-/

namespace PipelineLint.Yaml

/-- What is needed to find a node again in its tree: its kind and the offsets it lies between. -/
structure Handle where
  kind : Kind
  start : Nat
  stop : Nat
  deriving DecidableEq, Repr, Inhabited

namespace Handle

def ofNode (n : Node) : Handle := ⟨n.kind, n.start.offset, n.stop.offset⟩

def fits (h : Handle) (n : Node) : Bool :=
  n.kind = h.kind && n.start.offset = h.start && n.stop.offset = h.stop

/-- The first child that reaches over the whole range of the handle. -/
def childOver? (h : Handle) (n : Node) : Option Node :=
  match n.children.find? fun c => h.stop ≤ c.stop.offset && h.start < c.stop.offset with
  | some c => if c.start.offset ≤ h.start then some c else none
  | none => none

/-- The nodes from a node down to the innermost one that reaches over the range of the handle, that one
first. -/
def chain (h : Handle) : Nat → Node → List Node → List Node
  | 0, n, above => n :: above
  | fuel + 1, n, above =>
    match h.childOver? n with
    | some c => chain h fuel c (n :: above)
    | none => n :: above

/-- The innermost node of the tree that fits the handle. -/
def find? (h : Handle) (root : Node) : Option Node :=
  go (h.chain root.size root [])
where
  /-- Looks through the nodes from the inside out, as long as they do not leave the range. -/
  go : List Node → Option Node
    | [] => none
    | n :: above =>
      if h.fits n then some n
      else if n.start.offset < h.start || h.stop < n.stop.offset then none
      else go above

end Handle

structure Anchor where
  name : String
  /-- The place of the anchor itself. -/
  definition : Range
  /-- The places of the aliases in document order. -/
  references : List Range := []
  value : Handle
  valueRange : Range
  deriving DecidableEq, Repr, Inhabited

namespace Anchor

def isUnused (a : Anchor) : Bool := a.references.isEmpty

end Anchor

structure Anchors where
  table : NameMap Anchor := ∅
  /-- The value that each name stands for. -/
  values : NameMap Node := ∅
  /-- The aliases whose names no anchor has. -/
  unknown : List Located := []
  deriving Repr, Inhabited

def nameIn (t : Tree) (sigil : Char) (nameKind : Kind) (n : Node) : String :=
  String.ofList (match n.child? nameKind with
    | some name => t.textOf name
    | none => (t.textOf n).dropWhile (· == sigil))

def anchorName (t : Tree) (n : Node) : String := nameIn t '&' .anchorName n

def aliasName (t : Tree) (n : Node) : String := nameIn t '*' .aliasName n

namespace Anchors

/-- Adds the anchor at a place of a tree. Its value is the node that the anchor belongs to. -/
def define (t : Tree) (as : Anchors) (place : Cursor) : Anchors :=
  match place.parentNode? with
  | none => as
  | some value =>
    let name := anchorName t place.node
    if name.isEmpty then as
    else
      let anchor : Anchor :=
        { name, definition := place.node.range, value := .ofNode value, valueRange := value.range }
      { as with table := as.table.insert name anchor, values := as.values.insert name value }

def refer (t : Tree) (as : Anchors) (n : Node) : Anchors :=
  let name := aliasName t n
  if as.table.contains name then
    { as with
      table := as.table.modify name fun a => { a with references := a.references ++ [n.range] } }
  else { as with unknown := as.unknown ++ [⟨name, n.range⟩] }

/-- The anchors of a tree: first all anchors are defined, then all aliases are looked up. -/
def ofTree (t : Tree) : Anchors :=
  let places := t.root.places
  let defined := (places.filter (·.node.kind = .anchor)).foldl (define t) {}
  ((places.filter (·.node.kind = .alias)).map (·.node)).foldl (refer t) defined

end Anchors

end PipelineLint.Yaml
