import PipelineLint.Concrete.Loader.Event

/-! # Trees of YAML text

The events of a document make up a tree. Where a problem ends the document, the tree is cut: what lies before
the cut is there. Anchors are known by numbers. An anchor gets the number of anchor names before it, so that a
name that is used again can get the number of another one; an alias leads to the last node with its number.
-/

namespace PipelineLint.Load

inductive Tree where
  | scalar (mark : Mark) (anchor : Option Nat) (tag : Option (List Char)) (text : List Char) (isPlain : Bool)
  | alias (number : Nat)
  | sequence (mark : Mark) (anchor : Option Nat) (tag : Option (List Char)) (items : List Tree)
  | mapping (mark : Mark) (anchor : Option Nat) (tag : Option (List Char)) (parts : List Tree)
  | cut
  deriving Repr, Inhabited

inductive DocumentFault where
  | text (fault : Fault)
  | unknownAnchor (mark : Mark)
  deriving DecidableEq, Repr, Inhabited

structure OpenNode where
  mark : Mark
  anchor : Option Nat
  tag : Option (List Char)
  isMapping : Bool
  parts : List Tree := []
  deriving Repr, Inhabited

namespace OpenNode

def close (n : OpenNode) : Tree :=
  if n.isMapping then .mapping n.mark n.anchor n.tag n.parts.reverse
  else .sequence n.mark n.anchor n.tag n.parts.reverse

end OpenNode

/-- A document that is being put together. -/
structure Composer where
  /-- The names of anchors with their numbers, the last one first. -/
  names : List (List Char × Nat) := []
  /-- The collections around the place, the innermost first. -/
  pending : List OpenNode := []
  root : Option Tree := none
  deriving Repr, Inhabited

namespace Composer

def number (c : Composer) (anchor : Option (List Char)) : Option Nat × Composer :=
  match anchor with
  | none => (none, c)
  | some name =>
    let n := c.names.length
    (some n, { c with names := (name, n) :: c.names.filter (·.1 != name) })

def add (c : Composer) (t : Tree) : Composer :=
  match c.pending with
  | [] => { c with root := c.root <|> some t }
  | n :: pending => { c with pending := { n with parts := t :: n.parts } :: pending }

def close (c : Composer) : Composer :=
  match c.pending with
  | [] => c
  | n :: pending => { c with pending }.add n.close

def take (c : Composer) (e : Event) : Except DocumentFault Composer :=
  match e.kind with
  | .alias name => match c.names.find? (·.1 == name) with
    | some (_, n) => .ok (c.add (.alias n))
    | none => .error (.unknownAnchor e.mark)
  | .scalar properties text isPlain =>
    let (anchor, c) := c.number properties.anchor
    .ok (c.add (.scalar e.mark anchor properties.tag text isPlain))
  | .sequenceStart properties =>
    let (anchor, c) := c.number properties.anchor
    .ok { c with pending := ⟨e.mark, anchor, properties.tag, false, []⟩ :: c.pending }
  | .mappingStart properties =>
    let (anchor, c) := c.number properties.anchor
    .ok { c with pending := ⟨e.mark, anchor, properties.tag, true, []⟩ :: c.pending }
  | .sequenceEnd | .mappingEnd => .ok c.close

def closeAll : List OpenNode → Tree → Tree
  | [], t => t
  | n :: pending, t => closeAll pending { n with parts := t :: n.parts }.close

/-- The tree that has been put together; it is cut if it is not complete. -/
def tree (c : Composer) : Tree :=
  match c.pending, c.root with
  | [], some root => root
  | pending, _ => closeAll pending .cut

/-- Takes events in up to a problem. The number is that of the events taken. -/
def takeAll (c : Composer) (count : Nat) : List Event → Composer × Nat × Option DocumentFault
  | [] => (c, count, none)
  | e :: events => match c.take e with
    | .ok c => takeAll c (count + 1) events
    | .error fault => (c, count, some fault)

end Composer

namespace Tree

mutual
def find? (n : Nat) : Tree → Option Tree
  | .scalar m anchor tag text isPlain =>
    if anchor == some n then some (.scalar m anchor tag text isPlain) else none
  | .sequence m anchor tag items => match findAmong? n items with
    | some t => some t
    | none => if anchor == some n then some (.sequence m anchor tag items) else none
  | .mapping m anchor tag parts => match findAmong? n parts with
    | some t => some t
    | none => if anchor == some n then some (.mapping m anchor tag parts) else none
  | .alias _ => none
  | .cut => none
/-- The last node with the number of an anchor among several and below them. -/
def findAmong? (n : Nat) : List Tree → Option Tree
  | [] => none
  | t :: ts => match findAmong? n ts with
    | some found => some found
    | none => find? n t
end

end Tree

structure Loaded where
  isEmpty : Bool
  root : Tree
  /-- The number of events that make up the tree. -/
  size : Nat
  fault : Option DocumentFault
  hasMore : Bool
  deriving Repr, Inhabited

def Loaded.ofText (text : List Char) : Loaded :=
  let e := events text
  let (c, size, fault) := Composer.takeAll {} 0 e.events
  let fault := fault <|> e.fault.map .text
  { isEmpty := e.events.isEmpty && fault.isNone, root := c.tree, size, fault, hasMore := e.hasMore }

end PipelineLint.Load
