import PipelineLint.Data.Value

/-! # Values of YAML texts

A value is what a text stands for when aliases are followed, before merge keys are applied. Keys are values
themselves.
-/

namespace PipelineLint.Load

/-- What a node stands for. -/
inductive Value where
  | null
  | bool (value : Bool)
  | integer (value : Int)
  | float (value : Float)
  | text (value : List Char)
  | list (items : List Value)
  | map (entries : List (Value × Value))
  | tagged (tag : List Char) (value : Value)
  deriving Inhabited

namespace Value

/-- The same number; "not a number" is the same as itself. -/
def sameFloat (a b : Float) : Bool := (a.isNaN && b.isNaN) || a == b

mutual
/-- The same value. The order of entries does not matter. -/
def same : Value → Value → Bool
  | .null, .null => true
  | .bool a, .bool b => a == b
  | .integer a, .integer b => a == b
  | .float a, .float b => sameFloat a b
  | .text a, .text b => a == b
  | .list as, .list bs => sameItems as bs
  | .map as, .map bs => as.length == bs.length && sameEntries as bs
  | .tagged t a, .tagged u b => t == u && same a b
  | _, _ => false
def sameItems : List Value → List Value → Bool
  | [], [] => true
  | a :: as, b :: bs => same a b && sameItems as bs
  | _, _ => false
def sameEntries : List (Value × Value) → List (Value × Value) → Bool
  | [], _ => true
  | (k, a) :: as, bs => (bs.any fun (l, b) => same k l && same a b) && sameEntries as bs
end

def lookup? (key : Value) (entries : List (Value × Value)) : Option Value :=
  (entries.find? fun (k, _) => k.same key).map (·.2)

end Value

end PipelineLint.Load
