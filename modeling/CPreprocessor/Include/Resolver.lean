/-
# Looking for headers

A quoted name is looked for in the directory of the including file and then on the
search path; an angled one on the search path only. `#include_next` looks further
from the place on the search path where the present file was found. Answers are
kept in a cache, negative ones as well.
-/
import CPreprocessor.Include.Cache
import CPreprocessor.Include.FileSystem
import CPreprocessor.Include.Name

namespace CPreprocessor

/-- A header that was found. -/
structure Header where
  /-- The path it is opened and shown with. -/
  path : Text
  /-- The path that tells it from other files. -/
  canonical : Text
  /-- Its place on the search path, if it was found there. -/
  searchIndex : Option Nat
  deriving DecidableEq, Repr

/-- The search path and the answers that are known already. -/
structure Resolver where
  searchPath : List Text
  cache : Cache Text (Option Header)

namespace Resolver

/-- The header at a path. -/
def headerAt (files : FileSystem) (candidate : Text) (searchIndex : Option Nat) : Option Header :=
  if files.isReadable candidate then
    some ⟨Path.normal candidate, files.canonical candidate, searchIndex⟩
  else
    none

/-- The header of an absolute name, which is used as it stands. -/
def absoluteHeader (files : FileSystem) (name : Text) : Option Header :=
  if files.isReadable name then some ⟨name, files.canonical name, none⟩ else none

/-- The first header of a name on a search path, whose first directory has number `index`. -/
def search (files : FileSystem) (name : Text) (index : Nat) : List Text → Option Header
  | [] => none
  | directory :: rest =>
    (headerAt files (Path.append directory name) (some index)) <|> search files name (index + 1) rest

/-- The first header of a name from some place of the search path on. -/
def searchFrom (files : FileSystem) (searchPath : List Text) (name : Text) (start : Nat) :
    Option Header :=
  search files name start (searchPath.drop start)

/-- The header of a relative name, looked up without the cache. -/
def lookUp (files : FileSystem) (searchPath : List Text) (name : Text) (form : IncludeForm)
    (directory : Text) : Option Header :=
  let near :=
    match form with
    | .quoted => headerAt files (Path.append directory name) none
    | .angled => none
  near <|> searchFrom files searchPath name 0

/-- Answer a question from the cache, or find the answer and keep it. -/
def remember (resolver : Resolver) (key : Text) (answer : Unit → Option Header) :
    Option Header × Resolver :=
  match resolver.cache.get key with
  | (some known, cache) => (known, { resolver with cache })
  | (none, cache) =>
    let found := answer ()
    (found, { resolver with cache := cache.put key found })

/-- What the cache knows a question by. -/
def key (name : Text) (form : IncludeForm) (directory : Text) : Text :=
  match form with
  | .quoted => "q:".toList ++ directory ++ '|' :: name
  | .angled => "a:".toList ++ name

/-- What the cache knows a further search by. -/
def nextKey (name : Text) (start : Nat) : Text :=
  "n:".toList ++ Text.ofNat start ++ '|' :: name

/-- The header of a name that a file includes. -/
def resolve (resolver : Resolver) (files : FileSystem) (name : Text) (form : IncludeForm)
    (includingFile : Text) : Option Header × Resolver :=
  if Path.isAbsolute name then
    (absoluteHeader files name, resolver)
  else
    let directory := Path.parent includingFile
    resolver.remember (key name form directory) fun _ =>
      lookUp files resolver.searchPath name form directory

/-- The place on the search path after one where a file was found; without one, the first place. Places
are counted in 64 bits. -/
def following : Option Nat → Nat
  | some index => (index + 1) % Nat.pow 2 64
  | none => 0

/-- The next header of a name on the search path, after the place where the present file was
found. -/
def resolveNext (resolver : Resolver) (files : FileSystem) (name : Text) (present : Option Nat) :
    Option Header × Resolver :=
  if Path.isAbsolute name then
    (absoluteHeader files name, resolver)
  else
    resolver.remember (nextKey name (following present)) fun _ =>
      searchFrom files resolver.searchPath name (following present)

end Resolver

end CPreprocessor
