import PipelineLint.Check.Cycles
import PipelineLint.Check.Executors
import PipelineLint.Check.Jobs
import PipelineLint.Check.Names
import PipelineLint.Check.Orbs
import PipelineLint.Check.Shape
import PipelineLint.Check.Workflows

/-! # Checking a document

All checks in their order. The bodies of local orbs come last; only their jobs, commands and executors are
checked.
-/

namespace PipelineLint.Check

def Scope.inOrb (s : Scope) (o : LocalOrb) : Scope :=
  { s with document := o.document, enclosing := some ⟨o.name, s.document⟩ }

def orbBody (s : Scope) : List Notice := jobs s ++ commands s ++ executors s

def document (loader : Load.Loader) (schema : Option Schema) (s : Scope) : List Notice :=
  anchors s ++ workflows s ++ jobs s ++ commands s ++ orbs s ++ executors s ++ names s ++ shape loader schema s ++
    references s ++ s.document.localOrbs.flatMap fun o => orbBody (s.inOrb o)

end PipelineLint.Check
