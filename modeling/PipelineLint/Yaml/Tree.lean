import PipelineLint.Text.Lines
import PipelineLint.Yaml.Node

/-! # Trees of texts

A grammar says which tree a text has. Nothing is asked of a grammar here: it reads every text, also one that is no
YAML, of which it makes error nodes and missing nodes as it sees fit.
-/

namespace PipelineLint.Yaml

structure Tree where
  source : List Char
  root : Node
  deriving Repr

def Tree.textOf (t : Tree) (n : Node) : List Char :=
  Text.slice t.source n.start.offset n.stop.offset

/-- A grammar, by the roots of the trees that it gives to texts. -/
structure Grammar where
  root : List Char → Node

def Grammar.tree (g : Grammar) (source : List Char) : Tree := ⟨source, (g.root source).number⟩

end PipelineLint.Yaml
