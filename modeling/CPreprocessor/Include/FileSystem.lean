/-
# Files

The preprocessor sees the files as they are when it starts: a tree of directories
and files without links, and a working directory that relative paths start from.
A location is the list of names that lead to it from the root.
-/
import CPreprocessor.Include.Path
import CPreprocessor.Source

namespace CPreprocessor

/-- What stands at a location. -/
inductive Entry where
  | directory
  | file (content : Text)
  deriving DecidableEq, Repr

/-- The files that a run can see. -/
structure FileSystem where
  workingDirectory : List Text := []
  /-- Every location but the root, which is always a directory. -/
  entries : List (List Text × Entry) := []

/-- What a path leads to. -/
inductive Lookup where
  | found (location : List Text) (entry : Entry)
  | missing
  /-- The path or a name in it is too long to be looked up. -/
  | tooLong
  deriving DecidableEq, Repr

namespace FileSystem

/-- The longest path that can be looked up, with the byte that ends it. -/
def longestPath : Nat := 4096

/-- The longest name in a directory. -/
def longestName : Nat := 255

/-- What stands at a location. -/
def at? (files : FileSystem) (location : List Text) : Option Entry :=
  if location = [] then some .directory else files.entries.lookup location

/-- Follow names from a location. Only a directory can be passed. -/
def follow (files : FileSystem) (location : List Text) : List Text → Lookup
  | [] =>
    match files.at? location with
    | some entry => .found location entry
    | none => .missing
  | name :: rest =>
    match files.at? location with
    | some .directory =>
      if name = Path.dot then
        files.follow location rest
      else if name = Path.dotDot then
        files.follow location.dropLast rest
      else if longestName < name.length then
        .tooLong
      else
        match files.at? (location ++ [name]) with
        | some _ => files.follow (location ++ [name]) rest
        | none => .missing
    | _ => .missing

/-- What a path leads to. The system reads a path up to its first zero byte. A slash at the end asks
for a directory. -/
def find (files : FileSystem) (path : Text) : Lookup :=
  let path := Text.beforeNul path
  if path = [] then
    .missing
  else if longestPath ≤ path.length then
    .tooLong
  else
    let start := if Path.isAbsolute path then [] else files.workingDirectory
    let names := Path.names path ++ (if Path.endsInSlash path then [Path.dot] else [])
    files.follow start names

/-- Something stands at the path. -/
def pathExists (files : FileSystem) (path : Text) : Bool :=
  match files.find path with
  | .found _ _ => true
  | _ => false

/-- A directory stands at the path. -/
def isDirectory (files : FileSystem) (path : Text) : Bool :=
  match files.find path with
  | .found _ .directory => true
  | _ => false

/-- A file that can be read stands at the path. -/
def isReadable (files : FileSystem) (path : Text) : Bool :=
  match files.find path with
  | .found _ (.file _) => true
  | _ => false

/-- The absolute path of a location. -/
def absolutePath (location : List Text) : Text :=
  '/' :: Path.joined location

/-- Take elements of a path as long as what they lead to exists. The result is the path taken and the
elements that are left; there is none if a path is too long to be looked up. -/
def leadingPath? (files : FileSystem) (taken : Text) : List Text → Option (Text × List Text)
  | [] => some (taken, [])
  | element :: rest =>
    let next := Path.append taken element
    match files.find next with
    | .found _ _ => files.leadingPath? next rest
    | .missing => some (taken, element :: rest)
    | .tooLong => none

/-- One path for every way to write it: the part of it that exists becomes an absolute path, and the
rest is brought to normal form. A path of which nothing exists stays relative, and one that is too
long to be looked up is only brought to normal form. -/
def canonical (files : FileSystem) (path : Text) : Text :=
  match files.find path with
  | .found location _ => absolutePath location
  | .tooLong => Path.normal path
  | .missing =>
    match files.leadingPath? [] (Path.elements path) with
    | none => Path.normal path
    | some (taken, rest) =>
      match files.find taken with
      | .found location _ => Path.normal (rest.foldl Path.append (absolutePath location))
      | _ => Path.normal (rest.foldl Path.append taken)

/-- The bytes of the file at a path. -/
def read (files : FileSystem) (path : Text) : Except SourceError Text :=
  match files.find path with
  | .found _ .directory => .error (.isDirectory path)
  | .found _ (.file content) => .ok content
  | _ => .error (.cannotOpen path)

/-- The file at a path as a source. -/
def readSource (files : FileSystem) (path : Text) (trigraphs : Bool) : Except SourceError Source :=
  match files.read path with
  | .ok raw => Source.ofBytes raw path trigraphs
  | .error error => .error error

end FileSystem

end CPreprocessor
