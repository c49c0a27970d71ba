import PipelineLint.Text.Lines

/-! # Files

The files below the working directory, as a value. A directory is there as soon as something lies in it.
Paths lead from the working directory, or from the root of the file system, where some directories are known and
nothing else unless it was put there.
-/

namespace PipelineLint

/-- A path: its names between slashes, without empty ones and without points. -/
structure Path where
  /-- The path starts at the root of the file system. -/
  isAbsolute : Bool
  /-- The path starts with a point. -/
  fromHere : Bool
  names : List String
  /-- The end of the path asks for a directory. -/
  asksDirectory : Bool
  deriving DecidableEq, Repr

namespace Path

def ofText (text : String) : Path :=
  let parts := (Text.splitAtChar '/' text.toList).map String.ofList
  let isAbsolute := text.toList.head? == some '/'
  { isAbsolute, fromHere := !isAbsolute && parts.head? == some "."
    names := parts.filter fun part => !(part.isEmpty || part == ".")
    asksDirectory := match parts.getLast? with
      | some last => last.isEmpty || last == "." || last == ".."
      | none => false }

def spelling (p : Path) : String :=
  (if p.isAbsolute then "/" else if p.fromHere then "./" else "") ++ "/".intercalate p.names

/-- The names that a path leads through. The root of the file system is the first one of an absolute path. -/
def steps (p : Path) : List String := if p.isAbsolute then "/" :: p.names else p.names

def child (directory name : String) : String :=
  if directory.isEmpty || directory.toList.getLast? == some '/' then directory ++ name
  else directory ++ "/" ++ name

def nameLimit : Nat := 255

def limit : Nat := 4095

end Path

/-- Why a file cannot be read. -/
inductive FileError where
  | notFound
  /-- The path leads through a file. -/
  | notDirectory
  | isDirectory
  /-- The path or a name in it is longer than it may be. -/
  | nameTooLong
  | invalidPath
  deriving DecidableEq, Repr, Inhabited

namespace FileError

def message : FileError → String
  | notFound => "No such file or directory (os error 2)"
  | notDirectory => "Not a directory (os error 20)"
  | isDirectory => "Is a directory (os error 21)"
  | nameTooLong => "File name too long (os error 36)"
  | invalidPath => "file name contained an unexpected NUL byte"

end FileError

structure File where
  content : String
  isExecutable : Bool := false
  deriving DecidableEq, Repr, Inhabited

/-- Files by the names that lead to them. -/
structure Files where
  entries : List (List String × File) := []
  /-- Directories that are there even if nothing lies in them. -/
  folders : List (List String) := []
  deriving Repr, Inhabited

/-- What lies at the end of a path. -/
inductive Place where
  | file (file : File)
  | directory (names : List String)
  /-- A device that is always empty. -/
  | void
  deriving Repr

namespace Files

def at? (files : Files) (names : List String) : Option File :=
  (files.entries.find? (·.1 == names)).map (·.2)

/-- The names right below given ones. -/
def below (files : Files) (names : List String) : List String :=
  ((files.entries.map (·.1) ++ files.folders).filterMap fun path =>
    if names.isPrefixOf path then path[names.length]? else none).eraseDups

/-- The directories outside of the working directory that are always there. -/
def systemDirectories : List (List String) :=
  [["/"], ["/", "tmp"], ["/", "usr"], ["/", "usr", "bin"], ["/", "bin"], ["/", "etc"], ["/", "dev"],
   ["/", "dev", "shm"], ["/", "var"], ["/", "var", "tmp"], ["/", "home"], ["/", "root"], ["/", "proc"]]

/-- What lies at the end of given names. -/
def placeAt? (files : Files) (names : List String) : Option Place :=
  match files.at? names with
  | some file => some (.file file)
  | none =>
    let inside := (files.below names).filter (· != "/")
    if names == ["/", "dev", "null"] then some .void
    else if names.isEmpty || !inside.isEmpty || (files.folders ++ systemDirectories).contains names then
      some (.directory inside)
    else none

/-- Follows the names of a path; two points lead to the directory above. The directory above the working
directory has nothing in it. -/
def follow (files : Files) (reached : List String) : List String → Except FileError Place
  | [] => match files.placeAt? reached with
    | some place => .ok place
    | none => .error .notFound
  | name :: names => match files.placeAt? reached with
    | none => .error .notFound
    | some (.file _) => .error .notDirectory
    | some .void => .error .notDirectory
    | some (.directory _) =>
      if name == ".." then
        match reached, names with
        | [], [] => .ok (.directory [])
        | [], _ :: _ => .error .notFound
        | ["/"], _ => follow files reached names
        | _, _ => follow files reached.dropLast names
      else if Path.nameLimit < name.utf8ByteSize then .error .nameTooLong
      else follow files (reached ++ [name]) names

def place (files : Files) (path : String) : Except FileError Place :=
  let p := Path.ofText path
  if path.toList.contains (Char.ofNat 0) then .error .invalidPath
  else if path.isEmpty then .error .notFound
  else if Path.limit < path.utf8ByteSize then .error .nameTooLong
  else match files.follow (if p.isAbsolute then ["/"] else []) p.names with
    | .ok (.file file) => if p.asksDirectory then .error .notDirectory else .ok (.file file)
    | .ok .void => if p.asksDirectory then .error .notDirectory else .ok .void
    | other => other

def read (files : Files) (path : String) : Except FileError String :=
  match files.place path with
  | .ok (.file file) => .ok file.content
  | .ok (.directory _) => .error .isDirectory
  | .ok .void => .ok ""
  | .error e => .error e

def list (files : Files) (path : String) : Except FileError (List String) :=
  match files.place path with
  | .ok (.file _) => .error .notDirectory
  | .ok .void => .error .notDirectory
  | .ok (.directory names) => .ok names
  | .error e => .error e

def hasPlace (files : Files) (path : String) : Bool := (files.place path).isOk

def hasFile (files : Files) (path : String) : Bool :=
  match files.place path with
  | .ok (.file _) => true
  | _ => false

def hasDirectory (files : Files) (path : String) : Bool :=
  match files.place path with
  | .ok (.directory _) => true
  | _ => false

def write (files : Files) (path : String) (file : File) : Files :=
  let names := (Path.ofText path).steps
  { files with entries := files.entries.filter (·.1 != names) ++ [(names, file)] }

def put (files : Files) (path content : String) : Files :=
  match files.place path with
  | .ok (.file file) => files.write path { file with content }
  | _ => files.write path { content }

def ofList (files : List (String × File)) : Files :=
  files.foldl (fun all (path, file) => all.write path file) {}

end Files

end PipelineLint
