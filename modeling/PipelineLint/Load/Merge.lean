import PipelineLint.Load.Value

/-! # Merge keys in values

The key `<<` of a mapping adds the entries of a mapping, or of the mappings in a list, to it. Entries that are there
stay as they are. What is added is not merged any further, so that the merge key of an added mapping becomes a
key of its own.
-/

namespace PipelineLint.Load

/-- A value that cannot be merged. -/
inductive MergeProblem where
  | scalar
  | tagged
  | scalarItem
  | listItem
  deriving DecidableEq, Repr, Inhabited

namespace MergeProblem

def text : MergeProblem → String
  | scalar => "expected a mapping or list of mappings for merging, but found scalar"
  | tagged => "unexpected tagged value in merge"
  | scalarItem => "expected a mapping for merging, but found scalar"
  | listItem => "expected a mapping for merging, but found sequence"

end MergeProblem

namespace Value

def addEntries (entries : List (Value × Value)) (more : List (Value × Value)) : List (Value × Value) :=
  more.foldl (fun all entry => if (lookup? entry.1 all).isSome then all else all ++ [entry]) entries

def addItems (entries : List (Value × Value)) : List Value → Except MergeProblem (List (Value × Value))
  | [] => .ok entries
  | item :: items => match item with
    | .map more => addItems (addEntries entries more) items
    | .list _ => .error .listItem
    | .tagged _ _ => .error .tagged
    | _ => .error .scalarItem

def mergeKey : Value := .text ['<', '<']

/-- The entries without the one of a key, whose place the last entry takes. -/
def removeEntry (key : Value) (entries : List (Value × Value)) : List (Value × Value) :=
  match entries.findIdx? fun (k, _) => k.same key with
  | none => entries
  | some i =>
    if i + 1 = entries.length then entries.dropLast
    else match entries.getLast? with
      | some last => entries.dropLast.set i last
      | none => entries

/-- Adds what the merge key of a mapping stands for. -/
def mergeEntries (entries : List (Value × Value)) : Except MergeProblem (List (Value × Value)) :=
  let others := removeEntry mergeKey entries
  match lookup? mergeKey entries with
  | none => .ok entries
  | some (.map more) => .ok (addEntries others more)
  | some (.list items) => addItems others items
  | some (.tagged _ _) => .error .tagged
  | some _ => .error .scalar

mutual
/-- How deep lists, mappings and tags nest in a value. -/
def depth : Value → Nat
  | .list items => depthOfItems items + 1
  | .map entries => depthOfEntries entries + 1
  | .tagged _ value => depth value + 1
  | _ => 0
def depthOfItems : List Value → Nat
  | [] => 0
  | value :: values => max (depth value) (depthOfItems values)
/-- How deep the values of entries nest. -/
def depthOfEntries : List (Value × Value) → Nat
  | [] => 0
  | (_, value) :: entries => max (depth value) (depthOfEntries entries)
end

/-- The values with something done to each of them, the last one first. -/
def fromLast {α : Type} (f : α → Except MergeProblem α) : List α → Except MergeProblem (List α)
  | [] => .ok []
  | a :: as => do
    let bs ← fromLast f as
    pure ((← f a) :: bs)

/-- Merges the mappings that nest up to a depth. -/
def mergeTo : Nat → Value → Except MergeProblem Value
  | 0, value => .ok value
  | n + 1, value => match value with
    | .map entries => do
      let entries ← mergeEntries entries
      let merged ← fromLast (fun (k, v) => (mergeTo n v).map (k, ·)) entries
      pure (.map merged)
    | .list items => (fromLast (mergeTo n) items).map .list
    | .tagged tag inner => (mergeTo n inner).map (.tagged tag)
    | value => .ok value

def merge (value : Value) : Except MergeProblem Value := mergeTo (depth value) value

end Value

end PipelineLint.Load
