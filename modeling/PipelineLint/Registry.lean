import PipelineLint.Files
import PipelineLint.Version

/-! # Orb registries

A registry answers which source an orb has at a version. A version may be partial or ask for the newest
one; the answer names the version that was taken and all that are published.
-/

namespace PipelineLint

inductive RegistryError where
  /-- No published version is asked for. -/
  | notFound (orb : String)
  /-- The registry does not answer. -/
  | unavailable (reason : String)
  /-- The published source cannot be read as an orb. -/
  | invalidSource (orb : String)
  | unreadable (path cause : String)
  deriving DecidableEq, Repr, Inhabited

namespace RegistryError

def message : RegistryError → String
  | notFound orb => "could not find orb " ++ orb
  | unavailable reason => "orb registry unavailable: " ++ reason
  | invalidSource orb => "invalid source for orb " ++ orb
  | unreadable path cause => "cannot read " ++ path ++ ": " ++ cause

end RegistryError

structure OrbSource where
  id : String
  version : String
  source : String
  versions : List String
  deriving DecidableEq, Repr, Inhabited

/-- A registry, by its answers to a name and a version. -/
structure Registry where
  fetch : String → String → Except RegistryError OrbSource

namespace Registry

def orbId (name version : String) : String := name ++ "@" ++ version

/-- The published version that is asked for: the very version, or else the newest one selected. -/
def choose (name version : String) (published : List String) : Except RegistryError String :=
  if published.contains version then .ok version
  else match Version.resolve? version published with
    | some found => .ok found
    | none => .error (.notFound (orbId name version))

def offline : Registry where
  fetch name version :=
    .error (.unavailable ("no registry configured to resolve " ++ orbId name version))

/-- The registry of orbs with versions and sources. Of two sources of one version the first counts. -/
def ofOrbs (orbs : List (String × String × String)) : Registry where
  fetch name version := do
    let published := (orbs.filter (·.1 == name)).map (·.2)
    let versions := published.map (·.1)
    let chosen ← choose name version versions
    match published.find? (·.1 == chosen) with
    | none => .error (.notFound (orbId name version))
    | some (_, source) => pure ⟨orbId name chosen, chosen, source, versions⟩

/-- The registry that never answers about its orbs. -/
def unavailable : Registry where
  fetch name version := .error (.unavailable (orbId name version))

/-- The versions of an orb among the names in a directory, in order. -/
def versionsIn (orb : String) (names : List String) : List String :=
  let versions := names.filterMap fun name => do
    let rest ← Text.dropPrefix? (orb.toList ++ ['@']) name.toList
    let version ← Text.dropPrefix? ".yml".toList.reverse rest.reverse
    pure (String.ofList version.reverse)
  versions.mergeSort (· ≤ ·)

/-- The registry in a directory, where the orb `owner/orb` has the files `owner/orb@version.yml`. -/
def ofDirectory (files : Files) (directory : String) : Registry where
  fetch name version := do
    match Text.cut? ['/'] name.toList with
    | none => .error (.notFound (orbId name version))
    | some (owner, orb) =>
      let orb := String.ofList orb
      let home := Path.child directory (String.ofList owner)
      let versions ← match files.list home with
        | .ok names => pure (versionsIn orb names)
        | .error .notFound => pure []
        | .error e => .error (.unreadable home e.message)
      let chosen ← choose name version versions
      let path := Path.child home (orbId orb chosen ++ ".yml")
      match files.read path with
      | .ok source => pure ⟨orbId name chosen, chosen, source, versions⟩
      | .error e => .error (.unreadable path e.message)

/-- Some version of an orb is published. -/
def publishes (r : Registry) (name : String) : Except RegistryError Bool :=
  match r.fetch name Version.volatile with
  | .ok _ => .ok true
  | .error (.notFound _) => .ok false
  | .error e => .error e

end Registry

end PipelineLint
