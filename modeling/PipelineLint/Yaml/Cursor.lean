import PipelineLint.Yaml.Node

/-! # Cursors

A cursor stands at a node of a tree and remembers the way from the node where it started. It moves to
the first child, to the next sibling and to the parent, and never leaves the tree it started in.
`Cursor.walk` visits what lies before it in document order.
-/

namespace PipelineLint.Yaml

/-- One step down: the node that was left and the siblings still to come. -/
structure Frame where
  parent : Node
  right : List Node
  deriving Repr

/-- A place in a tree. -/
structure Cursor where
  node : Node
  path : List Frame := []
  deriving Repr

namespace Cursor

def parentNode? (c : Cursor) : Option Node :=
  c.path.head?.map (·.parent)

def firstChild? (c : Cursor) : Option Cursor :=
  match c.node.children with
  | [] => none
  | child :: right => some ⟨child, ⟨c.node, right⟩ :: c.path⟩

def nextSibling? (c : Cursor) : Option Cursor :=
  match c.path with
  | [] => none
  | ⟨_, []⟩ :: _ => none
  | ⟨parent, sibling :: right⟩ :: path => some ⟨sibling, ⟨parent, right⟩ :: path⟩

def parent? (c : Cursor) : Option Cursor :=
  match c.path with
  | [] => none
  | frame :: path => some ⟨frame.parent, path⟩

/-- Moves to the next sibling of the node or of the nearest node above it that has one. -/
def climb? (node : Node) : List Frame → Option Cursor
  | [] => none
  | frame :: path =>
    match nextSibling? ⟨node, frame :: path⟩ with
    | some next => some next
    | none => climb? frame.parent path

/-- Moves to the next node in document order. -/
def next? (c : Cursor) : Option Cursor :=
  match c.firstChild? with
  | some child => some child
  | none => climb? c.node c.path

/-- The number of nodes that come after those above the cursor. -/
def remaining (c : Cursor) : Nat :=
  c.node.size + c.path.foldr (fun frame n => Node.sizeAll frame.right + n) 0

/-- Visits at most `steps` places in document order. -/
def walkSteps : Nat → Cursor → List Cursor
  | 0, _ => []
  | steps + 1, c =>
    c :: match c.next? with
      | none => []
      | some next => walkSteps steps next

/-- The places from the cursor on, in document order. -/
def walk (c : Cursor) : List Cursor :=
  walkSteps c.remaining c

end Cursor

/-- The places of a tree in document order. -/
def Node.places (root : Node) : List Cursor :=
  (Cursor.mk root []).walk

end PipelineLint.Yaml
