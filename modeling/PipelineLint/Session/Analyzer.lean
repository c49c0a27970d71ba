import PipelineLint.AnalysisError
import PipelineLint.Cache
import PipelineLint.Check.Document
import PipelineLint.Docker.Image
import PipelineLint.Document.Parse
import PipelineLint.Files
import PipelineLint.Shell.Layout

/-! # Analyzers

An analyzer reads a configuration, fetches the orbs that it declares, checks it and answers what the checks want
to know. Whatever a collaborator has answered is kept in the session and not asked again; a question without an
answer is asked again the next time. A session is a run of analyses that share what they learn so. What libraries and
the system do is a host.
-/

namespace PipelineLint

inductive Question where
  /-- The registry: the source of an orb at a version. -/
  | orb (name version : String)
  /-- Docker Hub: whether a repository exists. -/
  | repository (owner name : String)
  /-- Docker Hub: the tags of a repository. -/
  | tags (owner name : String)
  /-- The shell linter: the findings in a script. -/
  | script (text : String)
  deriving DecidableEq, Repr, Inhabited

structure Session where
  caches : Caches := {}
  /-- The files below the working directory. -/
  files : Files := {}
  asked : List Question := []
  deriving Inhabited

namespace Session

def ask (s : Session) (q : Question) : Session := { s with asked := s.asked ++ [q] }

def keep (s : Session) (f : Caches → Caches) : Session := { s with caches := f s.caches }

end Session

/-- What libraries and the system do. -/
structure Host where
  grammar : Yaml.Grammar
  loader : Load.Loader
  /-- Makes a schema of data that describes one. -/
  compile : Data → Option Schema
  readToml : List Char → Option Data
  runner : Shell.Runner

/-- Settings with the collaborators that they ask for. -/
structure Analyzer where
  grammar : Yaml.Grammar
  loader : Load.Loader
  settings : Settings := {}
  registry : Registry := .offline
  hub : Docker.Hub := .offline
  linter : Shell.Linter := .silent
  schema : Option Schema := none

namespace Analyzer

/-- The registry of settings. Orbs come from the directory that is set, as it is among the files. -/
def registryOf (settings : Settings) (files : Files) : Registry :=
  match settings.orbDirectory with
  | some directory => .ofDirectory files directory
  | none => .offline

def linterOf (runner : Shell.Runner) (settings : Settings) : Shell.Linter :=
  if settings.lintsScripts then .ofProgram runner settings.linterProgram else .silent

def ofSettings (host : Host) (settings : Settings) (files : Files) : Except AnalysisError Analyzer := do
  if let some fault := settings.fault? files then throw (.settings (.fault fault))
  let schema ← match settings.schemaFile with
    | none => pure none
    | some path => match Schema.ofFile host.compile files path with
      | .ok schema => pure (some schema)
      | .error e => throw (.settings (.schema e))
  pure { grammar := host.grammar, loader := host.loader, settings, schema, registry := registryOf settings files
         linter := linterOf host.runner settings }

variable (a : Analyzer)

/-- What a fetched orb declares, with the newest versions around its own. -/
def orbContents (url : OrbUrl) (found : OrbSource) : Except RegistryError OrbInfo :=
  match Document.parseOrb a.grammar found.source.toList with
  | .error _ => .error (.invalidSource url.id)
  | .ok document =>
    let info := document.toOrbInfo url.id found.version
    .ok (match NewestVersions.of? found.version found.versions with
      | none => info
      | some newest => { info with
          latest := some newest.latest
          latestMinor := some newest.latestMinor
          latestPatch := some newest.latestPatch })

/-- The contents of an orb, asked for unless they are kept. -/
def fetchOrb (s : Session) (url : OrbUrl) : Except RegistryError OrbInfo × Session :=
  match s.caches.orbs.get? url.id with
  | some info => (.ok info, s)
  | none =>
    let s := s.ask (.orb url.name url.version)
    match a.registry.fetch url.name url.version >>= a.orbContents url with
    | .ok info => (.ok info, s.keep (·.insertOrb info))
    | .error e => (.error e, s)

/-- The orb has a version in the registry that is known before the pipeline runs. -/
def isFetchable (use : OrbUse) : Bool := !use.url.isLocal && !Reference.hasSubstitution use.url.version

/-- Fetches orbs. The result says why some of them are not known. -/
def fetchOrbs (s : Session) : List OrbUse → NameMap RegistryError × Session
  | [] => (∅, s)
  | use :: uses =>
    match a.fetchOrb s use.url with
    | (.ok _, s) => fetchOrbs s uses
    | (.error e, s) =>
      let (failures, s) := fetchOrbs s uses
      (⟨(use.name, e) :: failures.entries⟩, s)

def fetchDeclared (s : Session) (d : Document) : NameMap RegistryError × Session :=
  a.fetchOrbs s (d.orbs.values.filter isFetchable)

/-- Whether a repository exists, asked for unless it is known. -/
def hasImage (s : Session) (image : Docker.Image) : Option Bool × Session :=
  let key := Docker.repository image.owner image.name
  match s.caches.images.get? key with
  | some found => (some found, s)
  | none =>
    let s := s.ask (.repository image.owner image.name)
    match a.hub.hasImage image.owner image.name with
    | .ok found => (some found, s.keep fun c => { c with images := c.images.insert key found })
    | .error _ => (none, s)

/-- The tags of a repository, asked for unless they are known. -/
def imageTags (s : Session) (image : Docker.Image) : Option (List String) × Session :=
  let key := Docker.repository image.owner image.name
  match s.caches.tags.get? key with
  | some tags => (some tags, s)
  | none =>
    let s := s.ask (.tags image.owner image.name)
    match a.hub.tags image.owner image.name with
    | .ok tags => (some tags, s.keep fun c => { c with tags := c.tags.insert key tags })
    | .error _ => (none, s)

/-- What follows from the answers of Docker Hub about an image. -/
def checkImage (s : Session) (spec : ImageSpec) : List Diagnostic × Session :=
  match a.hasImage s spec.image with
  | (none, s) => ([], s)
  | (some false, s) => ([Check.imageNotFound spec], s)
  | (some true, s) => match a.imageTags s spec.image with
    | (none, s) => ([], s)
    | (some tags, s) => (Check.imageTags spec tags, s)

/-- What the shell linter finds in the command of a step. -/
def lintScript (s : Session) (run : Run) : List Diagnostic × Session :=
  if Shell.isLintable run then
    let script := Shell.scriptOf run.command
    match a.linter.lint s.files script with
    | (.ok findings, files) => (findings.map (Shell.report (.ofRun run)), { s.ask (.script script) with files })
    | (.error _, files) => ([], { s.ask (.script script) with files })
  else ([], s)

def answer (s : Session) : Check.Notice → List Diagnostic × Session
  | .finding d => ([d], s)
  | .image spec => a.checkImage s spec
  | .script run => a.lintScript s run

/-- The findings that notices lead to, in order. -/
def answers (s : Session) : List Check.Notice → List Diagnostic × Session
  | [] => ([], s)
  | notice :: notices =>
    let (found, s) := a.answer s notice
    let (more, s) := answers s notices
    (found ++ more, s)

def check (s : Session) (d : Document) : Document × Session :=
  let (failures, s) := a.fetchDeclared s d
  let scope : Check.Scope := { settings := a.settings, caches := s.caches, failures, document := d }
  let (found, s) := a.answers s (Check.document a.loader a.schema scope)
  (d.addFindings found, s)

/-- Reads and checks a configuration. -/
def analyze (s : Session) (source : String) : Except AnalysisError Document × Session :=
  match Document.parse a.grammar source.toList with
  | .error _ => (.error (.broken [] source), s)
  | .ok d =>
    let (d, s) := a.check s d
    (.ok d, s)

/-- The text of a file, read unless it is kept. -/
def readFile (s : Session) (path : String) : Except AnalysisError String × Session :=
  let key := (Path.ofText path).spelling
  match s.caches.files.get? key with
  | some text => (.ok text, s)
  | none => match s.files.read path with
    | .error e => (.error (.unreadable e.message), s)
    | .ok text => (.ok text, s.keep fun c => { c with files := c.files.insert key text })

/-- Reads and checks the configuration in a file. -/
def analyzeFile (s : Session) (path : String) : Except AnalysisError Document × Session :=
  match readFile s path with
  | (.error e, s) => (.error e, s)
  | (.ok text, s) => a.analyze s text

/-- The contents of the orb with a name and a version in one text. -/
def resolveOrb (s : Session) (reference : String) : Except AnalysisError OrbInfo × Session :=
  let (found, s) := a.fetchOrb s (.parse reference)
  (found.mapError .registry, s)

end Analyzer

end PipelineLint
