/-
# Whole runs

A whole run opens a main file and reads all its tokens. If the main file cannot be
read, that is reported, and the run has no tokens. A malformed pragma operator gives
its tokens back to be expanded again, so there are files whose runs have no end:
the number of tokens of a run is bounded.
-/
import CPreprocessor.Preprocessor.Open

namespace CPreprocessor

/-- What a run gives. -/
structure RunResult where
  status : RunStatus
  /-- The tokens, with the end of the main file. -/
  tokens : List Token
  diagnostics : List Diagnostic

/-- The number of errors in a run. -/
def RunResult.errorCount (result : RunResult) : Nat :=
  result.diagnostics.countP (·.severity == .error)

namespace Preprocessor

/-- The reports of a run. -/
def journal (p : Preprocessor) : Journal :=
  p.reader.session.journal

/-- At most `n` further tokens, and then the end of the main file. -/
def tokensWithin (setup : Setup) : Nat → Preprocessor → List Token × Preprocessor
  | 0, p => ([p.finish.1], p.finish.2)
  | n + 1, p =>
    let token := (p.next setup).1
    if token.isEnd then
      ([token], (p.next setup).2)
    else
      let more := tokensWithin setup n (p.next setup).2
      (token :: more.1, more.2)

/-- The greatest number of tokens in a run. -/
def greatestLength : Nat := Nat.pow 2 60

/-- Read all tokens. -/
def run (setup : Setup) (p : Preprocessor) : RunResult × Preprocessor :=
  let done := p.tokensWithin setup greatestLength
  ({ status := done.2.reader.status, tokens := done.1, diagnostics := done.2.journal.entries },
    done.2)

/-- The end of a run whose main file cannot be read. -/
def failRun (p : Preprocessor) (name : Text) (cause : SourceError) : RunResult × Preprocessor :=
  let s := p.reader.session
  let journal := s.journal.reportAt .error .sourceUnreadable name 0 0 cause.message
  let expansion := { s.expansion with journal }
  let p := { p with reader := { withExpansion p.reader expansion with status := .fatal } }
  ({ status := .fatal, tokens := [.endOfFile ⟨name, name, 0⟩ 1 0 0],
     diagnostics := p.journal.entries }, p)

/-- Read all tokens of a main file that has been opened, or not. -/
def runOpened (setup : Setup) (p : Preprocessor) (name : Text) :
    Except OpenError Preprocessor → Except OpenError (RunResult × Preprocessor)
  | .ok opened => .ok (opened.run setup)
  | .error (.unreadable cause) => .ok (p.failRun name cause)
  | .error .alreadyOpen => .error .alreadyOpen

/-- Preprocess the file at a path. -/
def processFile (setup : Setup) (p : Preprocessor) (path : Text) :
    Except OpenError (RunResult × Preprocessor) :=
  runOpened setup p path (p.openFile setup path)

/-- Preprocess a text under a name. -/
def processSource (setup : Setup) (p : Preprocessor) (text name : Text) :
    Except OpenError (RunResult × Preprocessor) :=
  runOpened setup p name (p.openSource setup text name)

end Preprocessor

end CPreprocessor
