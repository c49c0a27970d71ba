import PipelineLint.Concrete.Grammar.Stream
import PipelineLint.Concrete.Loader.Decode
import PipelineLint.Concrete.Schema.Violations
import PipelineLint.Concrete.Shell.Program
import PipelineLint.Concrete.Toml
import PipelineLint.Session.Analyzer

/-! # A host

A host that is written out in full, for running the program where no libraries are at hand. What is proved of programs
holds on every host.
-/

namespace PipelineLint

def Host.standard : Host where
  grammar := .strict
  loader := .standard
  compile := Schema.Rule.compile
  readToml := Data.ofToml?
  runner := Shell.runProgram

def Analyzer.standard : Analyzer := { grammar := .strict, loader := .standard }

end PipelineLint
