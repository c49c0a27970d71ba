import PipelineLint.Concrete.Host
import PipelineLint.Report.Run

/-! # The command line -/

namespace PipelineLint.Main

/-- Adds files at paths below the working directory, as far as they can be read. -/
def gather (files : Files) (paths : List String) : IO Files :=
  paths.foldlM (fun files (path : String) => do
    try
      let content ← IO.FS.readFile path
      pure (files.write path { content })
    catch _ => pure files) files

end PipelineLint.Main

open PipelineLint in
/-- Checks the file that the arguments name, writes what is found, and tells why there is no success. -/
def main (words : List String) : IO UInt32 := do
  match Arguments.read? words with
  | none =>
    IO.eprintln Arguments.usage
    return 2
  | some arguments =>
    let files ← Main.gather {} arguments.firstFiles
    let files ← Main.gather files (arguments.furtherFiles .standard files)
    let (output, failure) := arguments.request.run .standard files none
    IO.print output
    match failure with
    | none => return 0
    | some failure =>
      failure.notes.forM fun note => IO.eprintln note.message
      return 1
