import PipelineLint.AnalysisError
import PipelineLint.Data.Value
import PipelineLint.Settings.Basic

/-! # Files of settings

Settings are written in sections, each of them a record. What is left out keeps its usual value. They come from a file
that is asked for, or else from the file of the project, or else from the file of the system; without any of these
they are the usual ones.
-/

namespace PipelineLint.Settings

section

open Data

def readChecks (s : Settings) (d : Data) : Option Settings := do
  match ← fields? ["docker_images", "shell_lint", "orb_versions", "unused"] d with
  | [images, scripts, versions, unused] =>
    pure { s with
      checksImages := ← fieldOr s.checksImages bool? images
      lintsScripts := ← fieldOr s.lintsScripts bool? scripts
      checksOrbVersions := ← fieldOr s.checksOrbVersions bool? versions
      findsUnused := ← fieldOr s.findsUnused bool? unused }
  | _ => none

def readRegistry (s : Settings) (d : Data) : Option Settings := do
  match ← fields? ["host_url", "token", "orb_dir"] d with
  | [host, token, directory] =>
    pure { s with
      hostUrl := ← fieldOr s.hostUrl string? host
      registryToken := ← fieldOr s.registryToken optionalString? token
      orbDirectory := ← fieldOr s.orbDirectory optionalString? directory }
  | _ => none

def readLinter (s : Settings) (d : Data) : Option Settings := do
  match ← fields? ["path"] d with
  | [path] => pure { s with linterProgram := ← fieldOr s.linterProgram string? path }
  | _ => none

/-- Reads what is known about the organization. -/
def readApi (s : Settings) (d : Data) : Option Settings := do
  match ← fields? ["token", "organization", "contexts"] d with
  | [token, organization, contexts] =>
    pure { s with
      apiToken := ← fieldOr s.apiToken optionalString? token
      organization := ← fieldOr s.organization optionalString? organization
      contexts := ← fieldOr s.contexts strings? contexts }
  | _ => none

def readSchema (s : Settings) (d : Data) : Option Settings := do
  match ← fields? ["path"] d with
  | [path] => pure { s with schemaFile := ← fieldOr s.schemaFile optionalString? path }
  | _ => none

def sections : List (String × (Settings → Data → Option Settings)) :=
  [("validation", readChecks), ("registry", readRegistry), ("shellcheck", readLinter), ("api", readApi),
   ("schema", readSchema)]

def ofData? (d : Data) : Option Settings := do
  let given ← fields? (sections.map (·.1)) d
  (sections.zip given).foldlM (fun s ((_, read), part) => fieldOr s (read s) part) {}

end

def projectFile : String := "ciyaml/config.toml"

variable (readToml : List Char → Option Data)

def read? (text : String) : Option Settings := readToml text.toList >>= ofData?

def ofText (files : Files) (text : String) : Except SettingsError Settings :=
  match read? readToml text with
  | none => .error .malformed
  | some settings => match settings.fault? files with
    | some fault => .error (.faultInFile fault)
    | none => .ok settings

def ofFile (files : Files) (path : String) : Except AnalysisError Settings :=
  if files.hasPlace path then
    match files.read path with
    | .error e => .error (.unreadable e.message)
    | .ok text => (ofText readToml files text).mapError .settings
  else .error (.settings (.missingFile path))

def find (files : Files) (asked system : Option String) : Except AnalysisError Settings :=
  match asked with
  | some path => ofFile readToml files path
  | none =>
    if files.hasPlace projectFile then ofFile readToml files projectFile
    else match system with
      | some text => (ofText readToml files text).mapError .settings
      | none => .ok {}

end PipelineLint.Settings
