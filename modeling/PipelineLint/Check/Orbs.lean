import PipelineLint.Check.Usage
import PipelineLint.Version

/-! # Orbs

Declared orbs must be there and should be used and up to date.
-/

namespace PipelineLint.Check

/-- Finds an orb whose contents could not be had. -/
def orbFailure (use : OrbUse) (failure : RegistryError) : Diagnostic :=
  match failure with
  | .notFound _ => .error .undefinedOrb use.valueRange ("Cannot find remote orb " ++ use.url.id)
  | .invalidSource _ => .error .undefinedOrb use.valueRange "Orb or version not found"
  | .unavailable _ | .unreadable .. =>
    .warning .orbUnavailable use.valueRange
      ("Cannot resolve orb " ++ use.url.id ++ ": " ++ failure.message)

def majorOf? (text : String) : Option Nat := (Version.ofText? text).map (·.major)

def versionLine (title version : String) : String := title ++ version ++ "\n"

/-- How far a version is behind the newest ones. A version before the first release comes first, then a
missing patch, a missing minor version and a missing major version. -/
def behind? (current : String) (newest : NewestVersions) : Option (Severity × String) :=
  let latest := versionLine "Latest:  " newest.latest
  let minor := if newest.latest != newest.latestMinor then versionLine "Minor:   " newest.latestMinor else ""
  let patch := if newest.latest != newest.latestMinor && newest.latestMinor != newest.latestPatch then
    versionLine "Patch:   " newest.latestPatch else ""
  let text (kind lines : String) : String :=
    "A newer " ++ kind ++ " version exists.\n\n" ++ versionLine "Current: " current ++ lines ++ latest
  if majorOf? current == some 0 && (majorOf? newest.latest).any (· != 0) then
    some (.warning, "A production version has been released. Latest: " ++ newest.latest)
  else if newest.latestPatch != current then some (.warning, text "patched" (patch ++ minor))
  else if newest.latestMinor != current then some (.information, text "minor" minor)
  else if newest.latest != current then some (.information, text "major" "")
  else none

def offerVersions (use : OrbUse) (current : String) (offers : List (String × String)) (d : Diagnostic) :
    Diagnostic :=
  (offers.foldl (fun (d, offered) (title, target) =>
    if Version.isNewer current target && !offered.contains target then
      (d.withAction (.replace (title ++ " (" ++ target ++ ")") use.versionRange target), target :: offered)
    else (d, offered)) (d, ([] : List String))).1

def orbUpdate (use : OrbUse) (current : String) (newest : NewestVersions) : List Diagnostic :=
  match behind? current newest with
  | none => []
  | some (severity, message) =>
    [offerVersions use current
      [("Update to last patch", newest.latestPatch), ("Update to last minor", newest.latestMinor),
        ("Update to last version", newest.latest)]
      { severity, code := some .orbUpdate, message, range := use.range }]

def orbVersion (s : Scope) (use : OrbUse) : List Diagnostic :=
  match s.orbInfo? use.name with
  | none => []
  | some info => match info.latest, info.latestMinor, info.latestPatch with
    | some latest, some latestMinor, some latestPatch =>
      orbUpdate use info.version ⟨latest, latestMinor, latestPatch⟩
    | _, _, _ => []

def orb (s : Scope) (use : OrbUse) : List Diagnostic :=
  (if s.settings.findsUnused && !isOrbUsed s.document use.name then
    [unused .warning "Orb is unused" use.nameRange] else []) ++
  if use.url.isLocal || Reference.hasSubstitution use.url.version then []
  else match s.failures.get? use.name with
    | some failure => [orbFailure use failure]
    | none =>
      if s.settings.checksOrbVersions && use.url.version != Version.volatile then orbVersion s use else []

def orbs (s : Scope) : List Notice := (s.document.orbs.values.flatMap (orb s)).map .finding

end PipelineLint.Check
