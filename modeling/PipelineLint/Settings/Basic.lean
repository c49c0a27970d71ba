import PipelineLint.Files

/-! # Settings

Settings choose the optional checks and say how collaborators are reached. `Settings.fault?` finds the first
value that cannot be used.
-/

namespace PipelineLint

structure Settings where
  /-- Docker images are looked up. -/
  checksImages : Bool := false
  /-- Commands are given to the shell linter. -/
  lintsScripts : Bool := false
  /-- Orbs with newer versions are found. -/
  checksOrbVersions : Bool := true
  /-- Unused things are found. -/
  findsUnused : Bool := true
  hostUrl : String := "https://circleci.com"
  registryToken : Option String := none
  orbDirectory : Option String := none
  linterProgram : String := "shellcheck"
  apiToken : Option String := none
  organization : Option String := none
  contexts : List String := []
  schemaFile : Option String := none
  deriving DecidableEq, Repr, Inhabited

/-- A value that cannot be used. -/
inductive SettingsFault where
  | hostUrl (url : String)
  | orbDirectory (path : String)
  | linterProgram
  | schemaFile (path : String)
  deriving DecidableEq, Repr, Inhabited

namespace SettingsFault

def message : SettingsFault → String
  | hostUrl url => "Invalid registry host url: " ++ url
  | orbDirectory path => "Orb directory is not a directory: " ++ path
  | linterProgram => "Empty shellcheck path"
  | schemaFile path => "Schema file not found: " ++ path

end SettingsFault

namespace Settings

/-- The host that registry orbs come from unless another one is set. -/
def defaultHost : String := "https://circleci.com"

/-- The default host is used; slashes at the end do not matter. -/
def usesDefaultHost (s : Settings) : Bool :=
  Text.dropEndWhile (· == '/') s.hostUrl.toList == defaultHost.toList

/-- There is a token for the programming interface. -/
def isLoggedIn (s : Settings) : Bool := s.apiToken.any fun token => !token.isEmpty

def hasWebHost (s : Settings) : Bool :=
  ["http://", "https://"].any fun start => Text.startsWith s.hostUrl.toList start.toList

/-- The first value that cannot be used. -/
def fault? (s : Settings) (files : Files) : Option SettingsFault :=
  if !s.hasWebHost then some (.hostUrl s.hostUrl)
  else match s.orbDirectory.filter fun path => !files.hasDirectory path with
    | some path => some (.orbDirectory path)
    | none =>
      if s.linterProgram.isEmpty then some .linterProgram
      else (s.schemaFile.filter fun path => !files.hasFile path).map .schemaFile

end Settings

end PipelineLint
