import PipelineLint.Diagnostic.Basic
import PipelineLint.Model.Entity
import PipelineLint.Yaml.View

/-! # Reading entities

Entities are read from a view of a tree, and findings are made on the way. Reading does not end where a
value contains itself through an alias.

Other findings are about the text itself: parts that no rule accepts, missing punctuation, no document at all,
merges of things that are no mappings, and aliases without an anchor.
-/

namespace PipelineLint

/-- A value contains itself. -/
structure Endless where
  deriving DecidableEq, Repr

/-- The outcome of reading: a result with findings in order, or no end. -/
def Reads (α : Type) : Type := Except Endless (α × List Diagnostic)

namespace Reads

instance : Monad Reads where
  pure a := .ok (a, [])
  bind x f := match x with
    | .error e => .error e
    | .ok (a, findings) => match f a with
      | .error e => .error e
      | .ok (b, more) => .ok (b, findings ++ more)

def endless {α : Type} : Reads α := Except.error {}

def note (d : Diagnostic) : Reads Unit := Except.ok ((), [d])

def notes (findings : List Diagnostic) : Reads Unit := Except.ok ((), findings)

/-- Reads something from each of some things. -/
def each {α β : Type} (f : α → Reads β) : List α → Reads (List β)
  | [] => pure []
  | x :: xs => do
    let y ← f x
    let ys ← each f xs
    pure (y :: ys)

/-- Reads on from a state through each of some things. -/
def through {α σ : Type} (f : σ → α → Reads σ) : σ → List α → Reads σ
  | s, [] => pure s
  | s, x :: xs => do
    let s ← f s x
    through f s xs

end Reads

namespace Read

open Yaml

variable (v : View)

def environment (n : Node) : Environment :=
  { range := n.range
    values := NameMap.ofList ((v.pairs n).filterMap fun p =>
      let key := v.keyText p
      if key.isEmpty then none else some (key, ⟨v.textOrEmpty p.value, p.range⟩)) }

def dictionary (n : Node) : NameMap String :=
  NameMap.ofList ((v.pairs n).filterMap fun p => p.value.map fun value => (v.keyText p, v.text value))

/-- Adds an entity under its name, unless the name is taken: the first definition counts, and both
definitions are found. -/
def insertFirst {α : Type} (m : NameMap α) (name : String) (entity : α) (nameRange : α → Range)
    (message : String) : Reads (NameMap α) :=
  match m.get? name with
  | none => pure (m.insert name entity)
  | some first => do
    Reads.note (((Diagnostic.warning .duplicate {} message).withLabel (nameRange entity)
      "defined again here").withExplanation (nameRange first) "first defined here")
    Reads.note (.warning .duplicate (nameRange first) message)
    pure m

end Read

namespace Read

open Yaml

/-- A merge whose value is no mapping and no sequence of mappings. -/
def badMerge? (v : View) (n : Node) : Option Diagnostic := do
  let p ← v.pair? n
  if v.keyText p == mergeKey && !(p.rawValue.any v.isMergeValue) then
    some (.error .invalidMerge p.valueOrPairRange
      "map merge requires map or sequence of maps as the value")
  else none

/-- The finding at a place of a tree. An error inside an error is not found again. -/
def syntaxFinding? (v : View) (place : Cursor) : Option Diagnostic :=
  let n := place.node
  if n.kind = .error then
    if place.parentNode?.any (·.kind = .error) then none
    else some (.error .invalidSyntax n.range "Error! Please fix your yaml file")
  else if n.missing then some (.error .missingToken n.range ("Missing `" ++ n.kind.name ++ "`"))
  else if n.kind.isPair then badMerge? v n
  else none

/-- The findings about the text of a tree. -/
def syntaxFindings (v : View) (anchors : Anchors) : List Diagnostic :=
  let places := v.tree.root.places
  places.filterMap (syntaxFinding? v) ++
    (if places.any (·.node.kind = .document) then []
      else [.error .missingDocument v.tree.root.range "Invalid yaml file"]) ++
    anchors.unknown.map fun a =>
      .error .unknownAnchor a.range ("unknown anchor '" ++ a.text ++ "' referenced")

end Read

end PipelineLint
