import PipelineLint.AnalysisError
import PipelineLint.Cache
import PipelineLint.Catalog
import PipelineLint.Check.Cycles
import PipelineLint.Check.Document
import PipelineLint.Check.Executors
import PipelineLint.Check.Jobs
import PipelineLint.Check.Names
import PipelineLint.Check.Orbs
import PipelineLint.Check.Run
import PipelineLint.Check.Scope
import PipelineLint.Check.Shape
import PipelineLint.Check.Steps
import PipelineLint.Check.Usage
import PipelineLint.Check.Workflows
import PipelineLint.Concrete.Grammar.Block
import PipelineLint.Concrete.Grammar.Flow
import PipelineLint.Concrete.Grammar.Head
import PipelineLint.Concrete.Grammar.Lexeme
import PipelineLint.Concrete.Grammar.Stream
import PipelineLint.Concrete.Grammar.Token
import PipelineLint.Concrete.Host
import PipelineLint.Concrete.Loader.Cursor
import PipelineLint.Concrete.Loader.Decode
import PipelineLint.Concrete.Loader.Event
import PipelineLint.Concrete.Loader.Fault
import PipelineLint.Concrete.Loader.Scalar
import PipelineLint.Concrete.Loader.Tag
import PipelineLint.Concrete.Loader.Token
import PipelineLint.Concrete.Loader.Tree
import PipelineLint.Concrete.Loader.Value
import PipelineLint.Concrete.Schema.Draft
import PipelineLint.Concrete.Schema.Rule
import PipelineLint.Concrete.Schema.Violations
import PipelineLint.Concrete.Shell.Builtin
import PipelineLint.Concrete.Shell.Command
import PipelineLint.Concrete.Shell.Edit
import PipelineLint.Concrete.Shell.Expansion
import PipelineLint.Concrete.Shell.Expression
import PipelineLint.Concrete.Shell.Format
import PipelineLint.Concrete.Shell.Options
import PipelineLint.Concrete.Shell.Pattern
import PipelineLint.Concrete.Shell.Places
import PipelineLint.Concrete.Shell.Process
import PipelineLint.Concrete.Shell.Program
import PipelineLint.Concrete.Shell.Run
import PipelineLint.Concrete.Shell.Texts
import PipelineLint.Concrete.Shell.Utility
import PipelineLint.Concrete.Shell.Word
import PipelineLint.Concrete.Toml
import PipelineLint.Data.Json
import PipelineLint.Data.Value
import PipelineLint.Diagnostic.Basic
import PipelineLint.Diagnostic.Suppression
import PipelineLint.Docker.Image
import PipelineLint.Document.Basic
import PipelineLint.Document.Jobs
import PipelineLint.Document.Lookup
import PipelineLint.Document.Parameters
import PipelineLint.Document.Parse
import PipelineLint.Document.Reads
import PipelineLint.Document.Steps
import PipelineLint.Files
import PipelineLint.Load.Decode
import PipelineLint.Load.Merge
import PipelineLint.Load.Value
import PipelineLint.Main
import PipelineLint.Model.Entity
import PipelineLint.Model.Step
import PipelineLint.NameMap
import PipelineLint.Position
import PipelineLint.Proofs.Addresses
import PipelineLint.Proofs.Check.Codes
import PipelineLint.Proofs.Check.Conformity
import PipelineLint.Proofs.Check.Cycles
import PipelineLint.Proofs.Check.Defaults
import PipelineLint.Proofs.Check.Durations
import PipelineLint.Proofs.Check.Fits
import PipelineLint.Proofs.Check.ImageFixes
import PipelineLint.Proofs.Check.Matrix
import PipelineLint.Proofs.Check.MissingParameters
import PipelineLint.Proofs.Check.NamedExecutors
import PipelineLint.Proofs.Check.OrbScopes
import PipelineLint.Proofs.Check.OrbUpdates
import PipelineLint.Proofs.Check.References
import PipelineLint.Proofs.Check.Requirements
import PipelineLint.Proofs.Check.Said
import PipelineLint.Proofs.Check.Sight
import PipelineLint.Proofs.Check.Strays
import PipelineLint.Proofs.Check.UnknownOrbs
import PipelineLint.Proofs.Check.Unused
import PipelineLint.Proofs.Check.UnusedCommands
import PipelineLint.Proofs.Check.UnusedOrbs
import PipelineLint.Proofs.Data.Ways
import PipelineLint.Proofs.Diagnostic.Edits
import PipelineLint.Proofs.Diagnostic.Fits
import PipelineLint.Proofs.Diagnostic.IgnoreFixes
import PipelineLint.Proofs.Diagnostic.Suppression
import PipelineLint.Proofs.Docker.Parts
import PipelineLint.Proofs.Document.Alike
import PipelineLint.Proofs.Document.Assigned
import PipelineLint.Proofs.Document.CallSites
import PipelineLint.Proofs.Document.Calls
import PipelineLint.Proofs.Document.Conditional
import PipelineLint.Proofs.Document.Contexts
import PipelineLint.Proofs.Document.Defaults
import PipelineLint.Proofs.Document.Endless
import PipelineLint.Proofs.Document.Entities
import PipelineLint.Proofs.Document.Findings
import PipelineLint.Proofs.Document.FirstDefinitions
import PipelineLint.Proofs.Document.Fits
import PipelineLint.Proofs.Document.FitsEntities
import PipelineLint.Proofs.Document.FitsSteps
import PipelineLint.Proofs.Document.LastDefinitions
import PipelineLint.Proofs.Document.LocalOrb
import PipelineLint.Proofs.Document.NestedOrbs
import PipelineLint.Proofs.Document.OrbEntries
import PipelineLint.Proofs.Document.Owners
import PipelineLint.Proofs.Document.PathRange
import PipelineLint.Proofs.Document.Restyle
import PipelineLint.Proofs.Document.RestyledEntities
import PipelineLint.Proofs.Document.RestyledSteps
import PipelineLint.Proofs.Document.Returns
import PipelineLint.Proofs.Document.Sections
import PipelineLint.Proofs.Document.Styles
import PipelineLint.Proofs.Document.VersionRange
import PipelineLint.Proofs.Files
import PipelineLint.Proofs.Load.Entries
import PipelineLint.Proofs.Load.Expansion
import PipelineLint.Proofs.Load.Merge
import PipelineLint.Proofs.Model.Inside
import PipelineLint.Proofs.Model.Unplaced
import PipelineLint.Proofs.NameMap
import PipelineLint.Proofs.Reference
import PipelineLint.Proofs.Reference.Cursor
import PipelineLint.Proofs.Reference.Scan
import PipelineLint.Proofs.Registry.Directory
import PipelineLint.Proofs.Related
import PipelineLint.Proofs.Results
import PipelineLint.Proofs.Schema.Exempt
import PipelineLint.Proofs.Session.FetchedOnce
import PipelineLint.Proofs.Session.Fits
import PipelineLint.Proofs.Session.History
import PipelineLint.Proofs.Session.Kept
import PipelineLint.Proofs.Shell.Layout
import PipelineLint.Proofs.Shell.Sums
import PipelineLint.Proofs.Text.Blank
import PipelineLint.Proofs.Text.Integer
import PipelineLint.Proofs.Text.Lines
import PipelineLint.Proofs.Text.Measure
import PipelineLint.Proofs.Text.Position
import PipelineLint.Proofs.Text.Split
import PipelineLint.Proofs.Version.Newest
import PipelineLint.Proofs.Version.Order
import PipelineLint.Proofs.Version.Resolve
import PipelineLint.Proofs.Yaml.Aliases
import PipelineLint.Proofs.Yaml.Alike
import PipelineLint.Proofs.Yaml.Anchors
import PipelineLint.Proofs.Yaml.BlockScalar
import PipelineLint.Proofs.Yaml.Cursor
import PipelineLint.Proofs.Yaml.Edges
import PipelineLint.Proofs.Yaml.Escapes
import PipelineLint.Proofs.Yaml.Holds
import PipelineLint.Proofs.Yaml.Lies
import PipelineLint.Proofs.Yaml.Merge
import PipelineLint.Proofs.Yaml.Numbering
import PipelineLint.Proofs.Yaml.Orderly
import PipelineLint.Proofs.Yaml.PlainMerges
import PipelineLint.Proofs.Yaml.Quoted
import PipelineLint.Proofs.Yaml.Visits
import PipelineLint.Reference
import PipelineLint.Registry
import PipelineLint.Report.Run
import PipelineLint.Schema.Basic
import PipelineLint.Schema.Violation
import PipelineLint.Session.Analyzer
import PipelineLint.Settings.Basic
import PipelineLint.Settings.File
import PipelineLint.Shell.Layout
import PipelineLint.Shell.Linter
import PipelineLint.Text.Blank
import PipelineLint.Text.Decimal
import PipelineLint.Text.Hidden
import PipelineLint.Text.Integer
import PipelineLint.Text.Lines
import PipelineLint.Text.Measure
import PipelineLint.Version
import PipelineLint.Yaml.Anchors
import PipelineLint.Yaml.CoreSchema
import PipelineLint.Yaml.Cursor
import PipelineLint.Yaml.Node
import PipelineLint.Yaml.Outline
import PipelineLint.Yaml.ScalarText
import PipelineLint.Yaml.Tree
import PipelineLint.Yaml.View
