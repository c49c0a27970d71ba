import PipelineLint.Concrete.Shell.Run
import PipelineLint.Shell.Linter

/-! # Running programs

A program is a file of the working directory that names its interpreter, or a program that is called by its name
alone.
-/

namespace PipelineLint.Shell

def denied : String := "Permission denied (os error 13)"

def notProgram : String := "Exec format error (os error 8)"

def programFault? (files : Files) (program : String) : Option String :=
  if program.toList.contains (Char.ofNat 0) then some "nul byte found in provided data"
  else if program == "." || program == ".." then some denied
  else if !program.toList.contains '/' then
    if Process.programs.contains program then none
    else if Path.nameLimit < program.utf8ByteSize then some FileError.nameTooLong.message
    else some FileError.notFound.message
  else if Process.isProgram program then none
  else match files.place program with
    | .error e => some e.message
    | .ok (.file file) =>
      if !file.isExecutable then some denied
      else match interpreter? file.content.toList with
        | none => some notProgram
        | some (interpreter, _) =>
          if Process.isProgram interpreter then none
          else match files.place interpreter with
            | .error e => some e.message
            | .ok (.file other) => if other.isExecutable then none else some denied
            | .ok _ => some denied
    | .ok _ => some denied

def maxNesting : Nat := 1500

def process (files : Files) (program : String) (arguments : List String) (input : List Char) : Process :=
  Process.start maxNesting { files, name := program, arguments, input } program arguments

def runProgram : Runner where
  run files program arguments input := match programFault? files program with
    | some cause => (.error cause, files)
    | none =>
      let after := process files program arguments input
      (.ok after.output, after.files)

end PipelineLint.Shell
