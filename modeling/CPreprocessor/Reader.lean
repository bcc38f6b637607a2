/-
# Reading files

The reader goes through the open files, carries out their directives, enters and
leaves headers, and gives the tokens that count one after the other. After the last
file it gives the end of the main file for ever.
-/
import CPreprocessor.Directive.Execute
import CPreprocessor.Reader.Frame

namespace CPreprocessor

/-- How a run stands. -/
inductive RunStatus where
  | ok
  /-- The run has ended with its first error. -/
  | aborted
  /-- The main file cannot be read. -/
  | fatal
  deriving DecidableEq, Repr

/-- The word for a status. -/
def RunStatus.name : RunStatus → Text
  | .ok => "OK".toList
  | .aborted => "ABORTED".toList
  | .fatal => "FATAL".toList

/-- The state of reading. -/
structure Reader where
  session : Session
  /-- The open files, the innermost first. -/
  frames : List Frame := []
  /-- Tokens of directives that are passed on. -/
  queued : List Token := []
  /-- The files that are read only once. -/
  onceFiles : List Text := []
  /-- The files that are guarded, with the names that guard them, the latest first. -/
  guards : List (Text × Text) := []
  /-- The number that the next file gets. -/
  nextFileNumber : Nat := 1
  status : RunStatus := .ok
  /-- The token that is given when there is nothing left to read. -/
  ending : Option { token : Token // token.isEnd = true } := none
  /-- Whether a main file has been opened. -/
  opened : Bool := false
  /-- The name of the main file. -/
  baseFile : Text := []

namespace Reader

/-- The place where directives are read. -/
def place (r : Reader) : Place :=
  match r.frames with
  | [] => { path := [], searchIndex := none, includeDepth := 0, baseFile := r.baseFile }
  | frame :: _ =>
    { path := frame.path, searchIndex := frame.searchIndex, includeDepth := frame.includeDepth,
      baseFile := r.baseFile }

/-- Report a problem at a token. -/
def report (r : Reader) (token : Token) (code : Code) (detail : Text) : Reader :=
  { r with session := r.session.report token code detail }

/-- End the run if there has been an error and the run is to end with its first one. -/
def checkAbort (setup : Setup) (r : Reader) : Reader :=
  if setup.config.failFast && 0 < r.session.journal.errorCount && r.status = .ok then
    { r with status := .aborted }
  else
    r

/-- Report the spelling error of a token, if it has one. -/
def reportSpelling (setup : Setup) (r : Reader) (token : Token) : Reader :=
  if token.error.isSome then
    { r with session := r.session.reportSpelling token }.checkAbort setup
  else
    r

/-- Open a file. -/
def openFrame (setup : Setup) (r : Reader) (source : Source) (path shown canonical : Text)
    (searchIndex : Option Nat) (includeDepth : Nat) (isPreamble : Bool) : Reader :=
  let file : FileRef := ⟨path, shown, r.nextFileNumber⟩
  let frame : Frame :=
    { lexer := .ofSource source file setup.config.language false
      path, canonical, searchIndex, includeDepth
      conditionDepth := r.session.conditions.depth
      isPreamble }
  { r with frames := frame :: r.frames, nextFileNumber := r.nextFileNumber + 1 }

/-! ## Headers -/

/-- A header adds nothing: it is read only once and has been, or its guard is defined. -/
def isSettled (setup : Setup) (r : Reader) (header : Header) : Bool :=
  r.onceFiles.contains header.canonical
    || (setup.skipsGuarded && (r.guards.lookup header.canonical).any r.session.macros.isDefined)

/-- The open file that a header is, if it is one; the outermost one if there are several. -/
def openFile? (r : Reader) (header : Header) : Option Frame :=
  r.frames.reverse.find? (·.canonical = header.canonical)

/-- The detail of a report that files are included too deeply. -/
def depthDetail (depth maxDepth : Nat) : Text :=
  "#include nested depth ".toList ++ Text.ofNat depth ++ " exceeds maximum of ".toList
    ++ Text.ofNat maxDepth

/-- Open a header that is not open. -/
def openHeader (setup : Setup) (r : Reader) (header : Header) (site : Token) : Reader :=
  let depth := r.place.includeDepth + 1
  if setup.config.maxIncludeDepth < depth then
    r.report site .includeDepthExceeded (depthDetail depth setup.config.maxIncludeDepth)
  else
    match setup.files.readSource header.path setup.config.trigraphs with
    | .error error => r.report site .includeNotFound error.message
    | .ok source =>
      r.openFrame setup source header.path header.path (setup.files.canonical header.path)
        header.searchIndex depth false

/-- Enter a header, unless it adds nothing or is open already. An open header whose guard is defined
adds nothing; any other includes itself. -/
def enter (setup : Setup) (r : Reader) (header : Header) (site : Token) : Reader :=
  if r.isSettled setup header then
    r
  else
    match r.openFile? header with
    | some frame =>
      if frame.guard.name?.any r.session.macros.isDefined then r
      else r.report site .includeCycle header.path
    | none => r.openHeader setup header site

/-! ## Directives -/

/-- Do what a directive asks for. -/
def act (setup : Setup) (r : Reader) (frame : Frame) (outer : List Frame) (d : Directive) :
    Action → Reader
  | .nothing => { r with frames := frame :: outer }
  | .enter header site => { r with frames := frame :: outer }.enter setup header site
  | .present line name =>
    { r with frames := { frame with lexer := frame.lexer.presentLine line name } :: outer }
  | .pass =>
    { r with
      frames := frame :: outer
      queued := r.queued ++ d.tokens.map fun token => { token with verbatim := true } }
  | .once =>
    { r with
      frames := frame :: outer
      onceFiles := if frame.isPreamble then r.onceFiles else frame.canonical :: r.onceFiles }

/-- Carry out the directive that `hash` starts in the innermost file. -/
def readDirective (setup : Setup) (r : Reader) (frame : Frame) (outer : List Frame) (hash : Token) :
    Reader :=
  let line := frame.lexer.restOfLine
  let d : Directive := { hash, name := line.1.head?, args := line.1.drop 1 }
  let done := d.execute setup r.place r.session
  let guard :=
    frame.guard.afterDirective d r.session.conditions.depth done.2.conditions.depth
  ({ r with session := done.2 }.act setup { frame with lexer := line.2, guard } outer d
    done.1).checkAbort setup

/-! ## Ends of files -/

/-- Report the conditionals that a file leaves open, the outermost first, and close them. -/
def closeConditions (frame : Frame) (s : Session) : Session :=
  let (unclosed, conditions) := s.conditions.popAbove frame.conditionDepth
  unclosed.reverse.foldl
    (fun s condition => s.report condition.opener .unterminatedCondition [])
    { s with conditions }

/-- Leave the innermost file at its end. -/
def closeFile (setup : Setup) (r : Reader) (frame : Frame) (outer : List Frame)
    (final : { token : Token // token.isEnd = true }) : Reader :=
  let r := if r.session.conditions.isLive then r.reportSpelling setup final.1 else r
  let guards :=
    match frame.guard.complete? with
    | some name => if frame.isPreamble then r.guards else (frame.canonical, name) :: r.guards
    | none => r.guards
  { r with
    session := closeConditions frame r.session
    guards
    ending := if outer = [] then some final else r.ending
    frames := outer }

/-- The token that is given when there is nothing left to read. A run that ends early ends in the
file that is open. -/
def finish (r : Reader) : Token × Reader :=
  match r.ending with
  | some final => (final.1, r)
  | none =>
    let file := match r.frames with
      | [] => .unknown
      | frame :: _ => frame.lexer.file
    (.endOfFile file 1 0 0, { r with ending := some ⟨.endOfFile file 1 0 0, rfl⟩ })

/-! ## Tokens -/

/-- A token starts a directive: `#` at the start of a line, unless a macro has made it. -/
def startsDirective (token : Token) : Bool :=
  token.isHash && token.atLineStart && token.calls = []

/-- Take a token of the innermost file that counts. -/
def accept (setup : Setup) (r : Reader) (frame : Frame) (outer : List Frame) (token : Token) :
    Reader :=
  { r with frames := { frame with guard := frame.guard.afterToken } :: outer }.reportSpelling setup
    token

/-- One step of reading: a token is given, or there is less to read. -/
inductive Step where
  | give (token : Token) (r : Reader)
  | goOn (r : Reader)

/-- Read one token of the innermost file. -/
def readToken (setup : Setup) (r : Reader) (frame : Frame) (outer : List Frame) : Step :=
  let taken := frame.lexer.next
  let frame := { frame with lexer := taken.2 }
  if isEnd : taken.1.isEnd = true then
    .goOn (r.closeFile setup frame outer ⟨taken.1, isEnd⟩)
  else if startsDirective taken.1 then
    .goOn (r.readDirective setup frame outer taken.1)
  else if r.session.conditions.isLive then
    .give taken.1 (r.accept setup frame outer taken.1)
  else
    .goOn { r with frames := frame :: outer }

/-- Make one step of reading. Tokens of passed directives come first. -/
def step (setup : Setup) (r : Reader) : Step :=
  match r.queued, r.frames with
  | token :: queued, _ => .give token { r with queued }
  | [], [] => .give r.finish.1 r.finish.2
  | [], frame :: outer =>
    if r.status = .aborted then .give r.finish.1 r.finish.2 else r.readToken setup frame outer

end Reader

end CPreprocessor
