/-
# Paths

A path is a text of names between slashes. A path that starts with a slash is
absolute. A slash at the end says that the path names a directory.
-/
import CPreprocessor.Text

namespace CPreprocessor.Path

/-- The path starts at the root. -/
def isAbsolute (path : Text) : Bool :=
  path.head? = some '/'

/-- The path ends with a slash. -/
def endsInSlash (path : Text) : Bool :=
  path.getLast? = some '/'

/-- The parts of a text between slashes, empty ones included. -/
def parts : Text → List Text
  | [] => [[]]
  | c :: rest =>
    if c = '/' then
      [] :: parts rest
    else
      match parts rest with
      | [] => [[c]]
      | part :: more => (c :: part) :: more

/-- The names in a path, without the root. -/
def names (path : Text) : List Text :=
  (parts path).filter (· ≠ [])

/-- The elements of a path: the root, the names, and an empty one for a slash at the end. -/
def elements (path : Text) : List Text :=
  (if isAbsolute path then [['/']] else []) ++ names path
    ++ (if endsInSlash path && names path ≠ [] then [[]] else [])

/-- The path of one path seen from another one. -/
def append (base path : Text) : Text :=
  if isAbsolute path then
    path
  else if base = [] || endsInSlash base then
    base ++ path
  else
    base ++ '/' :: path

/-- A text without slashes at its end. -/
def withoutSlashes (path : Text) : Text :=
  (path.reverse.dropWhile (· = '/')).reverse

/-- The path of the directory that a path is in; the root is in itself. -/
def parent (path : Text) : Text :=
  if names path = [] then
    path
  else
    let directory :=
      if endsInSlash path then path else (path.reverse.dropWhile (· ≠ '/')).reverse
    match withoutSlashes directory with
    | [] => if isAbsolute path then ['/'] else []
    | shorter => shorter

/-- The present directory. -/
def dot : Text := ['.']

/-- The directory that the present one is in. -/
def dotDot : Text := ['.', '.']

/-- Take one more name into a normal path, whose names come last first. `..` takes a name away, but
not another `..`, and nothing at the root. -/
def normalStep (rooted : Bool) (stack : List Text) (name : Text) : List Text :=
  if name = dot then
    stack
  else if name = dotDot then
    match stack with
    | [] => if rooted then [] else [dotDot]
    | last :: earlier => if last = dotDot then dotDot :: stack else earlier
  else
    name :: stack

/-- A normal path ends in a slash if the last thing in the path was a slash, `.`, or a `..` that took
a name away; but no slash stands after `..`. -/
def normalEndsInSlash (rooted : Bool) (path : Text) : Bool :=
  let all := names path
  let stack := all.foldl (normalStep rooted) []
  let before := all.dropLast.foldl (normalStep rooted) []
  (match stack with
    | [] => false
    | last :: _ => last ≠ dotDot)
    && (endsInSlash path || all.getLast? = some dot
      || (all.getLast? = some dotDot && stack.length < before.length))

/-- The names with slashes between them. -/
def joined (names : List Text) : Text :=
  ['/'].intercalate names

/-- The path in normal form: without `.`, without repeated slashes, and with `..` only at the
start. -/
def normal (path : Text) : Text :=
  if path = [] then
    []
  else
    let rooted := isAbsolute path
    let stack := (names path).foldl (normalStep rooted) []
    let text := (if rooted then ['/'] else []) ++ joined stack.reverse
      ++ (if normalEndsInSlash rooted path then ['/'] else [])
    if text = [] then dot else text

end CPreprocessor.Path
