/-
# Sessions

A session is what the preprocessor has learned from the directives it has read:
the macros, the open conditionals, the headers it has looked for, and the
problems it has met. A setup is what a run cannot change: its configuration, the
files it sees, and the clock.
-/
import CPreprocessor.Condition.Stack
import CPreprocessor.Include.Resolver
import CPreprocessor.Macro.Expansion

namespace CPreprocessor

/-- How the preprocessor is to work. -/
structure Configuration where
  language : Language := .standard
  /-- Where headers are looked for, in this order. -/
  searchPath : List Text := []
  /-- Macros to define first, with their values. -/
  definitions : List (Text × Text) := []
  /-- Macros to remove after that. -/
  removals : List Text := []
  maxIncludeDepth : Nat := 200
  /-- Whether line directives are applied or passed on. -/
  appliesLines : Bool := true
  /-- Whether pragmas are passed on. -/
  passesPragmas : Bool := false
  trigraphs : Bool := false
  /-- Whether the macros that every implementation has are defined first. -/
  standardMacros : Bool := true
  /-- Whether a run ends with its first error. -/
  failFast : Bool := false
  cacheCapacity : Nat := 256
  /-- Whether reports are written to a log. -/
  logging : Bool := true

/-- What a run cannot change. -/
structure Setup where
  config : Configuration := {}
  files : FileSystem := {}
  clock : Clock := default
  /-- Whether a header is passed over where it is known to be guarded by a name that is defined. -/
  skipsGuarded : Bool := true

/-- What the preprocessor has learned so far. -/
structure Session where
  macros : MacroTable
  conditions : ConditionStack := {}
  resolver : Resolver
  expansion : Expansion.State := {}

/-- Where a directive stands. -/
structure Place where
  /-- The path of the file, which quoted headers are looked for next to. -/
  path : Text
  /-- Where on the search path the file was found. -/
  searchIndex : Option Nat
  includeDepth : Nat
  /-- The name of the main file. -/
  baseFile : Text

namespace Session

/-- The reports of the session. -/
def journal (s : Session) : Journal :=
  s.expansion.journal

/-- Report a problem at a token. -/
def report (s : Session) (token : Token) (code : Code) (detail : Text) : Session :=
  { s with expansion := s.expansion.report token code detail }

/-- Report the spelling error of a token, if it has one. -/
def reportSpelling (s : Session) (token : Token) : Session :=
  match token.error with
  | some error => s.report token error.code token.lexeme
  | none => s

/-- Report the spelling errors of some tokens. -/
def reportSpellings (s : Session) (tokens : List Token) : Session :=
  tokens.foldl reportSpelling s

/-- What macro expansion depends on at a place. -/
def context (s : Session) (setup : Setup) (place : Place) : Expansion.Context where
  table := s.macros
  language := setup.config.language
  clock := setup.clock
  includeLevel := place.includeDepth
  baseFile := place.baseFile

/-- Expand some tokens. -/
def expand (s : Session) (setup : Setup) (place : Place) (tokens : List Token) :
    List Token × Session :=
  let (expanded, expansion) := Expansion.expandAll (s.context setup place) tokens s.expansion
  (expanded, { s with expansion })

/-- The header of a name at the front of some tokens. If there is none and the tokens start with a
name, they are expanded first. The tokens that were read are returned as well. -/
def readHeaderName (s : Session) (setup : Setup) (place : Place) (tokens : List Token) :
    Option IncludeName × List Token × Session :=
  match IncludeName.read? tokens with
  | some name => (some name, tokens, s)
  | none =>
    if tokens.head?.any Token.isName then
      let (expanded, s) := s.expand setup place tokens
      (IncludeName.read? expanded, expanded, s)
    else
      (none, tokens, s)

/-- Look for a header. Outside of the search path, the next header is any header. -/
def findHeader (s : Session) (setup : Setup) (place : Place) (next : Bool) (name : IncludeName) :
    Option Header × Session :=
  let (header, resolver) :=
    if next && place.searchIndex.isSome then
      s.resolver.resolveNext setup.files name.name place.searchIndex
    else
      s.resolver.resolve setup.files name.name name.form place.path
  (header, { s with resolver })

end Session

end CPreprocessor
