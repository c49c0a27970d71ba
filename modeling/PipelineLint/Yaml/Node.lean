import PipelineLint.Position

/-! # Syntax trees

A YAML text is read into a tree whose nodes know their kind and their place. Only named nodes occur;
punctuation shows as a node only where it is missing. Each node of a tree carries its number in document
order (`Node.number`), which tells apart two nodes that are otherwise equal.
-/

namespace PipelineLint.Yaml

/-- Line feed and carriage return. -/
def isBreak (c : Char) : Bool := c == '\n' || c == '\r'

/-- A place in the text that was read: its byte offset, row and byte column. -/
structure Mark where
  offset : Nat := 0
  row : Nat := 0
  column : Nat := 0
  deriving DecidableEq, Repr, Inhabited

namespace Mark

def position (m : Mark) : Position := ⟨m.row, m.column⟩

def next (m : Mark) (c : Char) : Mark :=
  if c = '\n' then ⟨m.offset + 1, m.row + 1, 0⟩
  else ⟨m.offset + c.utf8Size, m.row, m.column + c.utf8Size⟩

def after (m : Mark) (cs : List Char) : Mark :=
  cs.foldl next m

end Mark

inductive Kind where
  | stream | document | yamlDirective | yamlVersion | tagDirective | tagHandle | tagPrefix
  | reservedDirective | directiveName | directiveParameter
  | comment
  /-- A value in block position, with its anchor and tag. -/
  | blockNode
  /-- A value in flow position, with its anchor and tag. -/
  | flowNode
  | anchor | anchorName | tag | alias | aliasName
  | blockMapping | blockMappingPair | blockSequence | blockSequenceItem | blockScalar
  | flowMapping | flowSequence | flowPair
  | plainScalar | doubleQuoteScalar | singleQuoteScalar
  | nullScalar | booleanScalar | integerScalar | floatScalar | stringScalar
  | escapeSequence
  /-- A part of the text that no rule of the language accepts. -/
  | error
  | token (text : String)
  deriving DecidableEq, Repr, Inhabited

namespace Kind

def names : List (Kind × String) :=
  [(.stream, "stream"), (.document, "document"), (.yamlDirective, "yaml_directive"),
   (.yamlVersion, "yaml_version"), (.tagDirective, "tag_directive"), (.tagHandle, "tag_handle"),
   (.tagPrefix, "tag_prefix"), (.reservedDirective, "reserved_directive"),
   (.directiveName, "directive_name"), (.directiveParameter, "directive_parameter"),
   (.comment, "comment"), (.blockNode, "block_node"), (.flowNode, "flow_node"), (.anchor, "anchor"),
   (.anchorName, "anchor_name"), (.tag, "tag"), (.alias, "alias"), (.aliasName, "alias_name"),
   (.blockMapping, "block_mapping"), (.blockMappingPair, "block_mapping_pair"),
   (.blockSequence, "block_sequence"), (.blockSequenceItem, "block_sequence_item"),
   (.blockScalar, "block_scalar"), (.flowMapping, "flow_mapping"), (.flowSequence, "flow_sequence"),
   (.flowPair, "flow_pair"), (.plainScalar, "plain_scalar"),
   (.doubleQuoteScalar, "double_quote_scalar"), (.singleQuoteScalar, "single_quote_scalar"),
   (.nullScalar, "null_scalar"), (.booleanScalar, "boolean_scalar"),
   (.integerScalar, "integer_scalar"), (.floatScalar, "float_scalar"),
   (.stringScalar, "string_scalar"), (.escapeSequence, "escape_sequence"), (.error, "ERROR")]

def name : Kind → String
  | .token text => text
  | kind => ((names.find? (·.1 = kind)).map (·.2)).getD ""

def ofName (name : String) : Kind :=
  ((names.find? (·.2 = name)).map (·.1)).getD (.token name)

/-- The kinds of values that are a piece of text. -/
def isScalar : Kind → Bool
  | .plainScalar | .doubleQuoteScalar | .singleQuoteScalar | .blockScalar => true
  | _ => false

def isMapping : Kind → Bool
  | .blockMapping | .flowMapping => true
  | _ => false

def isSequence : Kind → Bool
  | .blockSequence | .flowSequence => true
  | _ => false

def isToken : Kind → Bool
  | .token _ => true
  | _ => false

def isDirective : Kind → Bool
  | .yamlDirective | .tagDirective | .reservedDirective => true
  | _ => false

def isPair : Kind → Bool
  | .blockMappingPair | .flowPair => true
  | _ => false

/-- The kinds that hold a value beside its anchor and tag. -/
def isHolder : Kind → Bool
  | .blockNode | .flowNode => true
  | _ => false

end Kind

/-- What a node is to the pair above it. -/
inductive Role where
  | key | value
  /-- Neither key nor value. -/
  | part
  deriving DecidableEq, Repr, Inhabited

/-- A node of a syntax tree. -/
structure Node where
  /-- The number of the node in document order. -/
  id : Nat := 0
  kind : Kind
  role : Role := .part
  /-- The node stands for something that the text lacks. -/
  missing : Bool := false
  start : Mark
  stop : Mark
  children : List Node := []
  deriving Repr, Inhabited

namespace Node

def range (n : Node) : Range := ⟨n.start.position, n.stop.position⟩

mutual
/-- The number of nodes of a tree. -/
def size : Node → Nat
  | ⟨_, _, _, _, _, _, children⟩ => 1 + sizeAll children
/-- The number of nodes of a list of trees. -/
def sizeAll : List Node → Nat
  | [] => 0
  | n :: ns => size n + sizeAll ns
end

mutual
/-- The nodes of a tree in document order, each before its children. -/
def preorder : Node → List Node
  | n@⟨_, _, _, _, _, _, children⟩ => n :: preorderAll children
/-- The nodes of a list of trees in document order. -/
def preorderAll : List Node → List Node
  | [] => []
  | n :: ns => preorder n ++ preorderAll ns
end

theorem preorder_eq (n : Node) : n.preorder = n :: preorderAll n.children := by
  cases n
  simp [preorder]

@[simp] theorem preorderAll_nil : preorderAll [] = [] := by simp [preorderAll]

@[simp] theorem preorderAll_cons (n : Node) (ns : List Node) :
    preorderAll (n :: ns) = n.preorder ++ preorderAll ns := by simp [preorderAll]

@[simp] theorem sizeAll_nil : sizeAll [] = 0 := by simp [sizeAll]

@[simp] theorem sizeAll_cons (n : Node) (ns : List Node) :
    sizeAll (n :: ns) = n.size + sizeAll ns := by simp [sizeAll]

@[simp] theorem sizeAll_append (ns ms : List Node) :
    sizeAll (ns ++ ms) = sizeAll ns + sizeAll ms := by
  induction ns with
  | nil => simp
  | cons n ns ih => simp [ih, Nat.add_assoc]

mutual
theorem length_preorder : (n : Node) → n.preorder.length = n.size
  | ⟨_, _, _, _, _, _, children⟩ => by
    simp [preorder, size, length_preorderAll children, Nat.add_comm]
theorem length_preorderAll : (ns : List Node) → (preorderAll ns).length = sizeAll ns
  | [] => by simp
  | n :: ns => by simp [length_preorder n, length_preorderAll ns]
end

theorem self_mem_preorder (n : Node) : n ∈ n.preorder := by
  rw [preorder_eq]
  exact List.mem_cons_self

theorem mem_preorderAll {m : Node} {ns : List Node} :
    m ∈ preorderAll ns ↔ ∃ n ∈ ns, m ∈ n.preorder := by
  induction ns with
  | nil => simp
  | cons n ns ih => simp [ih]

mutual
/-- The nodes of a tree are closed under children. -/
theorem child_mem_preorder {c m : Node} (hc : c ∈ m.children) :
    (n : Node) → m ∈ n.preorder → c ∈ n.preorder
  | ⟨id, kind, role, missing, start, stop, children⟩, hm => by
    rw [preorder_eq] at hm ⊢
    rcases List.mem_cons.mp hm with rfl | hm
    · exact List.mem_cons_of_mem _ (mem_preorderAll.mpr ⟨c, hc, self_mem_preorder c⟩)
    · exact List.mem_cons_of_mem _ (child_mem_preorderAll hc children hm)
theorem child_mem_preorderAll {c m : Node} (hc : c ∈ m.children) :
    (ns : List Node) → m ∈ preorderAll ns → c ∈ preorderAll ns
  | [], hm => by simp at hm
  | n :: ns, hm => by
    rw [preorderAll_cons] at hm ⊢
    rcases List.mem_append.mp hm with hm | hm
    · exact List.mem_append_left _ (child_mem_preorder hc n hm)
    · exact List.mem_append_right _ (child_mem_preorderAll hc ns hm)
end

mutual
/-- Numbers the nodes of a tree in document order, the root with `next`; gives also the first number
that is not used. -/
def numberFrom (next : Nat) : Node → Node × Nat
  | ⟨_, kind, role, missing, start, stop, children⟩ =>
    let (children, after) := numberAllFrom (next + 1) children
    (⟨next, kind, role, missing, start, stop, children⟩, after)
def numberAllFrom (next : Nat) : List Node → List Node × Nat
  | [] => ([], next)
  | n :: ns =>
    let (n, after) := numberFrom next n
    let (ns, after) := numberAllFrom after ns
    (n :: ns, after)
end

/-- The tree with its nodes numbered in document order from zero. -/
def number (n : Node) : Node := (numberFrom 0 n).1

def namedChildren (n : Node) : List Node :=
  n.children.filter fun c => !c.kind.isToken

def child? (n : Node) (kind : Kind) : Option Node :=
  n.children.find? (·.kind = kind)

def key? (n : Node) : Option Node :=
  n.children.find? (·.role = .key)

def value? (n : Node) : Option Node :=
  n.children.find? (·.role = .value)

end Node

end PipelineLint.Yaml
