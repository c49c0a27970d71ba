import PipelineLint.Diagnostic.Basic
import PipelineLint.Registry
import PipelineLint.Schema.Basic
import PipelineLint.Settings.Basic

/-! # Why there is no analysis

What is wrong with a configuration is a finding. An error says why nothing could be found out about it.
-/

namespace PipelineLint

inductive SettingsError where
  | missingFile (path : String)
  /-- The file of the settings has no settings in it. -/
  | malformed
  | fault (fault : SettingsFault)
  /-- The file of the settings has a value that cannot be used. -/
  | faultInFile (fault : SettingsFault)
  /-- The schema that is set cannot be used. -/
  | schema (error : SchemaError)
  | other (reason : String)
  deriving DecidableEq, Repr, Inhabited

namespace SettingsError

def message : SettingsError → String
  | missingFile path => "Missing configuration file: " ++ path
  | malformed => "Failed to parse TOML configuration"
  | fault f => f.message
  | faultInFile f => "Validation error: " ++ f.message
  | schema e => e.message
  | other reason => reason

end SettingsError

inductive AnalysisError where
  /-- A file cannot be read. -/
  | unreadable (cause : String)
  /-- No document can be made from a text. -/
  | broken (findings : List Diagnostic) (source : String)
  | settings (error : SettingsError)
  | registry (error : RegistryError)
  deriving DecidableEq, Repr, Inhabited

namespace AnalysisError

def message : AnalysisError → String
  | unreadable cause => "I/O error: " ++ cause
  | broken findings _ => summaryLine findings
  | settings e => "Configuration error: " ++ e.message
  | registry e => "Orb registry error: " ++ e.message

def cause? : AnalysisError → Option String
  | unreadable cause => some cause
  | registry e => some e.message
  | _ => none

end AnalysisError

end PipelineLint
