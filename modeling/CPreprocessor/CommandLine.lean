/-
# The command line

The program reads options and input files, preprocesses each file on its own, or
only splits it into tokens, and writes the results in the order of the inputs.
Reports go to the second output. What the program writes is a function of its
arguments, the files it sees and the clock.
-/
import CPreprocessor.Preprocessor.Run

namespace CPreprocessor

/-- What the arguments ask for. -/
structure CommandLine where
  config : Configuration := {}
  inputs : List Text := []
  /-- Write one token on each line. -/
  printsTokens : Bool := false
  /-- Only split the inputs into tokens, and keep comments. -/
  lexesOnly : Bool := false
  /-- Write no reports. -/
  quiet : Bool := false

/-- What is wrong with the arguments. -/
inductive UsageError where
  | missingValue (flag : Text)
  | missingJobs
  | invalidDepth (argument : Text)
  | invalidJobs
  | unknownOption (argument : Text)
  | noInputs
  deriving DecidableEq, Repr

/-- What the program writes and the exit code that it ends with. -/
structure Outcome where
  exitCode : Nat
  output : Text
  errors : Text
  deriving DecidableEq, Repr

namespace UsageError

/-- The program's name at the start of a line. -/
def line (text : Text) : Text :=
  "cxxpp: ".toList ++ text ++ ['\n']

/-- The message for wrong arguments. -/
def message : UsageError → Text
  | missingValue flag => line ("missing argument for ".toList ++ flag)
  | missingJobs => line "missing argument for -j".toList ++ line "invalid job count".toList
  | invalidDepth argument => line ("invalid include depth: ".toList ++ argument)
  | invalidJobs => line "invalid job count".toList
  | unknownOption argument => line ("unknown option: ".toList ++ argument)
  | noInputs => line "no input files".toList

end UsageError

namespace CommandLine

/-- How the program is used. -/
def usage : Text :=
  [ "usage: cxxpp [options] file...",
    "  -I <dir>                  add include search path",
    "  -D NAME[=VALUE]           define macro (NAME(a,b)=body defines a function macro)",
    "  -U NAME                   undefine macro",
    "  --max-include-depth=N     maximum #include nesting (default 200)",
    "  --fail-fast               stop a translation unit at its first error",
    "  --trigraphs               replace trigraphs",
    "  --pass-pragmas            output #pragma lines unchanged",
    "  --no-line-remap           output #line directives instead of applying them",
    "  --tokens                  print one token per line: file:line:col KIND lexeme",
    "  --lex-only                tokenize without preprocessing (keeps comments)",
    "  -j N                      number of translation units processed in parallel",
    "  --quiet                   do not print diagnostics" ].flatMap fun line =>
      line.toList ++ ['\n']

/-- The size that decimal digits make of `size`, one after the other, in 64 bits. -/
def sizeFrom? (size : BitVec 64) : Text → Option (BitVec 64)
  | [] => some size
  | c :: rest =>
    if c.isDigit then sizeFrom? (size * 10 + BitVec.ofNat 64 (Text.digitValue c)) rest else none

/-- Read a size in decimal digits. The answer says whether there is one, and what becomes of `size`. -/
def readSize (text : Text) (size : Nat) : Bool × Nat :=
  if text = [] then
    (false, size)
  else
    match sizeFrom? 0 text with
    | some read => (true, read.toNat)
    | none => (false, size)

/-- The options that take a value, in the same argument or in the next one. -/
inductive ValueOption where
  | searchPath
  | definition
  | removal
  | jobs
  deriving DecidableEq

namespace ValueOption

/-- The option that an argument starts with, and the rest of the argument. -/
def read? : Text → Option (ValueOption × Text)
  | '-' :: 'I' :: rest => some (searchPath, rest)
  | '-' :: 'D' :: rest => some (definition, rest)
  | '-' :: 'U' :: rest => some (removal, rest)
  | '-' :: 'j' :: rest => some (jobs, rest)
  | _ => none

/-- What is wrong if an option has no value. -/
def missing : ValueOption → UsageError
  | searchPath => .missingValue "-I".toList
  | definition => .missingValue "-D".toList
  | removal => .missingValue "-U".toList
  | jobs => .missingJobs

end ValueOption

/-- A macro and its value, around the first `=`. -/
def readDefinition (text : Text) : Text × Text :=
  (text.takeWhile (· ≠ '='), (text.dropWhile (· ≠ '=')).drop 1)

/-- Apply an option with its value. The number of jobs makes no difference to what is written. -/
def withValue (c : CommandLine) (value : Text) : ValueOption → Except UsageError CommandLine
  | .searchPath =>
    .ok { c with config := { c.config with searchPath := c.config.searchPath ++ [value] } }
  | .definition =>
    let definitions := c.config.definitions ++ [readDefinition value]
    .ok { c with config := { c.config with definitions } }
  | .removal =>
    .ok { c with config := { c.config with removals := c.config.removals ++ [value] } }
  | .jobs =>
    match readSize value 1 with
    | (true, _ + 1) => .ok c
    | _ => .error .invalidJobs

/-- How the option for the depth of files starts. -/
def depthOption : Text :=
  "--max-include-depth=".toList

/-- Apply an argument that takes no value from the next one. -/
def withArgument (c : CommandLine) (argument : Text) : Except UsageError CommandLine :=
  if depthOption.isPrefixOf argument then
    match readSize (argument.drop depthOption.length) c.config.maxIncludeDepth with
    | (true, maxIncludeDepth) => .ok { c with config := { c.config with maxIncludeDepth } }
    | (false, _) => .error (.invalidDepth argument)
  else if argument = "--fail-fast".toList then
    .ok { c with config := { c.config with failFast := true } }
  else if argument = "--trigraphs".toList then
    .ok { c with config := { c.config with trigraphs := true } }
  else if argument = "--pass-pragmas".toList then
    .ok { c with config := { c.config with passesPragmas := true } }
  else if argument = "--no-line-remap".toList then
    .ok { c with config := { c.config with appliesLines := false } }
  else if argument = "--tokens".toList then
    .ok { c with printsTokens := true }
  else if argument = "--lex-only".toList then
    .ok { c with lexesOnly := true }
  else if argument = "--quiet".toList then
    .ok { c with quiet := true }
  else if argument.head? = some '-' && argument ≠ ['-'] then
    .error (.unknownOption argument)
  else
    .ok { c with inputs := c.inputs ++ [argument] }

/-- Read the arguments after those that are read already. Without a command line they ask for
help. -/
def readFrom (c : CommandLine) : List Text → Except UsageError (Option CommandLine)
  | [] => if c.inputs = [] then .error .noInputs else .ok (some c)
  | argument :: rest =>
    if argument = "-h".toList || argument = "--help".toList then
      .ok none
    else
      match ValueOption.read? argument, rest with
      | some (option, []), value :: rest =>
        match c.withValue value option with
        | .ok c => c.readFrom rest
        | .error error => .error error
      | some (option, []), [] => .error option.missing
      | some (option, value), rest =>
        match c.withValue value option with
        | .ok c => c.readFrom rest
        | .error error => .error error
      | none, rest =>
        match c.withArgument argument with
        | .ok c => c.readFrom rest
        | .error error => .error error
  termination_by arguments => arguments.length

/-- Read the arguments. -/
def read (arguments : List Text) : Except UsageError (Option CommandLine) :=
  readFrom {} arguments

/-! ## Inputs -/

/-- What an input gives. -/
structure InputResult where
  text : Text := []
  log : Text := []
  failed : Bool := false

/-- The last line of the reports of an input. -/
def summary (input : Text) (journal : Journal) : Text :=
  input ++ ": ".toList ++ Text.ofNat journal.errorCount ++ " error(s), ".toList
    ++ Text.ofNat journal.warningCount ++ " warning(s)".toList

/-- Tokens, each on a line of its own. -/
def tokenLines (tokens : List Token) : Text :=
  (tokens.takeWhile (!·.isEnd)).flatMap fun token => Spelling.describe token ++ ['\n']

/-- Split an input into tokens, blanks and comments included. -/
def lexInput (c : CommandLine) (files : FileSystem) (input : Text) : InputResult :=
  match files.readSource input c.config.trigraphs with
  | .error error =>
    { log := "[ERROR] ".toList ++ error.message ++ ['\n'], failed := true }
  | .ok source =>
    let tokens := (Lexer.ofSource source ⟨input, input, 1⟩ c.config.language true).tokenize.1
    let report (journal : Journal) (token : Token) : Journal :=
      match token.error with
      | some error => journal.report token error.code token.lexeme
      | none => journal
    let journal := tokens.foldl report { logging := !c.quiet }
    { text :=
        if c.printsTokens then tokenLines tokens
        else (tokens.takeWhile (!·.isEnd)).flatMap Token.lexeme
      log := journal.log ++ summary input journal ++ ['\n']
      failed := 0 < journal.errorCount }

/-- Preprocess an input. -/
def preprocessInput (c : CommandLine) (files : FileSystem) (clock : Clock) (input : Text) :
    InputResult :=
  let setup : Setup := { config := { c.config with logging := !c.quiet }, files, clock }
  match Preprocessor.create setup with
  | .error _ => { failed := true }
  | .ok p =>
    match p.processFile setup input with
    | .error error => { log := error.message ++ ['\n'], failed := true }
    | .ok (result, p) =>
      let status :=
        if result.status = .ok then [] else " [".toList ++ result.status.name ++ [']']
      { text :=
          if c.printsTokens then tokenLines result.tokens
          else Spelling.render true result.tokens
        log := p.journal.log ++ summary input p.journal ++ status ++ ['\n']
        failed := result.status ≠ .ok || 0 < p.journal.errorCount }

/-- Work on all inputs. -/
def run (c : CommandLine) (files : FileSystem) (clock : Clock) : Outcome :=
  let results := c.inputs.map fun input =>
    if c.lexesOnly then c.lexInput files input else c.preprocessInput files clock input
  { exitCode := if results.any InputResult.failed then 1 else 0
    output := results.flatMap InputResult.text
    errors := results.flatMap InputResult.log }

/-- What the program does with its arguments. -/
def execute (files : FileSystem) (clock : Clock) (arguments : List Text) : Outcome :=
  match read arguments with
  | .error error => { exitCode := 2, output := [], errors := error.message ++ usage }
  | .ok none => { exitCode := 0, output := usage, errors := [] }
  | .ok (some c) => c.run files clock

end CommandLine

end CPreprocessor
