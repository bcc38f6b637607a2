/-
# Opening the main file

A run starts with the builtin macros and an empty cache. It reads one main file;
the macros that the configuration defines and removes are written as directives
into a preamble, which is read before it.
-/
import CPreprocessor.Preprocessor.Next

namespace CPreprocessor

/-- Why a main file is not opened. -/
inductive OpenError where
  | unreadable (cause : SourceError)
  /-- A run has one main file. -/
  | alreadyOpen
  deriving DecidableEq, Repr

/-- The message for a main file that is not opened. -/
def OpenError.message : OpenError → Text
  | .unreadable cause => cause.message
  | .alreadyOpen => "preprocessor already opened a translation unit".toList

namespace Configuration

/-- A line that defines a macro. A value without text is one, and a value is kept on its line. -/
def definitionLine (name value : Text) : Text :=
  let body := if value = [] then ['1'] else value
  "#define ".toList ++ name ++ ' ' :: body.map (fun c => if c = '\n' || c = '\r' then ' ' else c)
    ++ ['\n']

/-- A line that removes a macro. -/
def removalLine (name : Text) : Text :=
  "#undef ".toList ++ name ++ ['\n']

/-- The macros that every implementation has. -/
def standardDefinitions : List (Text × Text) :=
  [("__cplusplus".toList, "201703L".toList), ("__STDC_HOSTED__".toList, "1".toList)]

/-- The text that is read before the main file. -/
def preamble (config : Configuration) : Text :=
  let standard := if config.standardMacros then standardDefinitions else []
  (standard ++ config.definitions).flatMap (fun (name, value) => definitionLine name value)
    ++ config.removals.flatMap removalLine

end Configuration

namespace Preprocessor

/-- A run that has not opened its main file. -/
def create (setup : Setup) : Except CacheError Preprocessor :=
  (Cache.empty? setup.config.cacheCapacity).map fun cache =>
    { reader :=
        { session :=
            { macros := MacroTable.addBuiltins {}
              resolver := { searchPath := setup.config.searchPath, cache }
              expansion := { journal := { logging := setup.config.logging } } } } }

/-- The name that messages give the preamble. -/
def preambleName : Text :=
  "<command-line>".toList

/-- Open the preamble, if there is one. -/
def openPreamble (setup : Setup) (r : Reader) : Reader :=
  let text := setup.config.preamble
  if text = [] then r
  else r.openFrame setup (Source.ofDecoded false text) [] preambleName [] none 0 true

/-- Open a main file. -/
def openMain (setup : Setup) (p : Preprocessor) (source : Except SourceError Source) (path : Text) :
    Except OpenError Preprocessor :=
  match source with
  | .error cause => .error (.unreadable cause)
  | .ok source =>
    if p.reader.opened then
      .error .alreadyOpen
    else
      let r := { p.reader with opened := true, baseFile := path }
      let r := r.openFrame setup source path path (setup.files.canonical path) none 0 false
      .ok { p with reader := openPreamble setup r }

/-- Open the file at a path. -/
def openFile (setup : Setup) (p : Preprocessor) (path : Text) : Except OpenError Preprocessor :=
  p.openMain setup (setup.files.readSource path setup.config.trigraphs) path

/-- Open a text under a name. -/
def openSource (setup : Setup) (p : Preprocessor) (text name : Text) :
    Except OpenError Preprocessor :=
  p.openMain setup (Source.ofBytes text name setup.config.trigraphs) name

end Preprocessor

end CPreprocessor
