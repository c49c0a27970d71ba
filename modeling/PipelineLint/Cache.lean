import PipelineLint.Model.Entity

/-! # Caches

What was learnt about orbs and Docker repositories is kept from one analysis to the next. A cache is a
map from keys; an entry stays until it is replaced or removed.
-/

namespace PipelineLint

/-- Answers that are kept under keys. -/
abbrev Cache (α : Type) := NameMap α

/-- Everything that is kept from one analysis to the next. -/
structure Caches where
  /-- The contents of orbs by name and version. -/
  orbs : Cache OrbInfo := ∅
  /-- Whether a Docker repository exists. -/
  images : Cache Bool := ∅
  /-- The tags of a Docker repository. -/
  tags : Cache (List String) := ∅
  files : Cache String := ∅
  deriving Inhabited

namespace Caches

/-- Keeps the contents of an orb under its name and version. -/
def insertOrb (c : Caches) (info : OrbInfo) : Caches := { c with orbs := c.orbs.insert info.id info }

end Caches

end PipelineLint
