import PipelineLint.Concrete.Shell.Process

/-! # Options of commands

The words that a command is called with: options of one letter with a hyphen, and the others.
-/

namespace PipelineLint.Shell.Utility

open Text Process

/-- The options that a command starts with, one letter each, and the other words. Options of `valued` letters
have a value, which follows the letter or is the next word. -/
def options (valued : List Char) : List String → List (Char × String) × List String
  | [] => ([], [])
  | "--" :: rest => ([], rest)
  | word :: rest => match word.toList with
    | '-' :: c :: cs =>
      let flags := (c :: cs).takeWhile fun d => !valued.contains d
      let plain := flags.map (·, "")
      match (c :: cs).drop flags.length with
      | [] =>
        let (more, words) := options valued rest
        (plain ++ more, words)
      | d :: value =>
        if !value.isEmpty then
          let (more, words) := options valued rest
          (plain ++ (d, String.ofList value) :: more, words)
        else match rest with
          | next :: rest =>
            let (more, words) := options valued rest
            (plain ++ (d, next) :: more, words)
          | [] => (plain, [])
    | _ =>
      let (more, words) := options valued rest
      (more, word :: words)

def value? (found : List (Char × String)) (letter : Char) : Option String :=
  (found.reverse.find? (·.1 == letter)).map (·.2)

def has (found : List (Char × String)) (letter : Char) : Bool := found.any (·.1 == letter)

/-- The first of some options that is unknown makes a command fail. -/
def guarded (p : Process) (command known : String) (found : List (Char × String)) (run : Process) : Process :=
  match found.find? fun option => !known.toList.contains option.1 with
  | some option => p.complain command ("invalid option " ++ String.singleton option.1) 2
  | none => run

/-- The lines of a text. A line feed at its end starts no further line. -/
def rows (text : List Char) : List (List Char) :=
  splitOn (· == '\n') (if text.getLast? == some '\n' then text.dropLast else text)
    |>.filter fun line => !(text.isEmpty && line.isEmpty)

end PipelineLint.Shell.Utility
