/-
# Diagnostics

Every problem has a code. A code fixes the default severity and the default
wording; a report adds a place and, where there is more to say, a detail in
parentheses. The journal of a run keeps the reports in order.
-/
import CPreprocessor.Token

namespace CPreprocessor

/-- The problems that are reported. -/
inductive Code where
  | macroRedefined
  | invalidMacroName
  | duplicateMacroParam
  | invalidMacroParams
  | invalidStringize
  | invalidPastePosition
  | illegalPastedToken
  | tooFewArgs
  | tooManyArgs
  | mismatchedParens
  | invalidDirective
  | extraTokens
  | mismatchedEndif
  | mismatchedElse
  | elseAfterElse
  | unterminatedCondition
  | emptyConstExpr
  | invalidExpression
  | divisionByZero
  | invalidIncludePath
  | includeNotFound
  | includeCycle
  | includeDepthExceeded
  | userErrorDirective
  | userWarningDirective
  | pragmaMessage
  | invalidLineDirective
  | invalidNumber
  | invalidCharacterLiteral
  | invalidEscapeSequence
  | unterminatedString
  | unterminatedChar
  | unterminatedComment
  | sourceUnreadable
  /-- A number that no problem of this list has. -/
  | unlisted (number : Int)
  deriving DecidableEq, Repr

/-- The problem that a misspelt token is. -/
def LexError.code : LexError → Code
  | .invalidNumber => .invalidNumber
  | .invalidCharacterLiteral => .invalidCharacterLiteral
  | .invalidEscapeSequence => .invalidEscapeSequence
  | .unterminatedString => .unterminatedString
  | .unterminatedChar => .unterminatedChar
  | .unterminatedComment => .unterminatedComment

/-- How serious a problem is. -/
inductive Severity where
  | warning
  | error
  deriving DecidableEq, Repr

/-- The word for a severity in logs. -/
def Severity.name : Severity → Text
  | .warning => "WARNING".toList
  | .error => "ERROR".toList

namespace Code

/-- The severity of a problem unless a report says otherwise. -/
def severity : Code → Severity
  | .macroRedefined | .extraTokens | .userWarningDirective | .pragmaMessage
  | .invalidEscapeSequence => .warning
  | _ => .error

/-- The wording of a problem unless a journal has another one. -/
def message : Code → Text
  | .macroRedefined => "Macro redefined with a different replacement list!".toList
  | .invalidMacroName => "Invalid macro name!".toList
  | .duplicateMacroParam => "Duplicate parameter in function macro definition!".toList
  | .invalidMacroParams => "Invalid parameter list in function macro definition!".toList
  | .invalidStringize => "'#' is not followed by a macro parameter!".toList
  | .invalidPastePosition => "'##' cannot appear at either end of a macro expansion!".toList
  | .illegalPastedToken => "Pasting does not give a valid preprocessing token!".toList
  | .tooFewArgs => "Too few arguments for function macro!".toList
  | .tooManyArgs => "Too many arguments for function macro!".toList
  | .mismatchedParens => "Unterminated argument list invoking function macro!".toList
  | .invalidDirective => "Invalid preprocessor directive!".toList
  | .extraTokens => "Extra tokens at end of directive!".toList
  | .mismatchedEndif => "#endif without #if!".toList
  | .mismatchedElse => "#else or #elif without #if!".toList
  | .elseAfterElse => "#else or #elif after #else!".toList
  | .unterminatedCondition => "Unterminated conditional directive (missing #endif)!".toList
  | .emptyConstExpr => "Empty constant expression in #if/#elif!".toList
  | .invalidExpression => "Invalid constant expression in #if/#elif!".toList
  | .divisionByZero => "Division by zero in constant expression!".toList
  | .invalidIncludePath => "Invalid include file name (expected \"file.h\" or <file.h>)!".toList
  | .includeNotFound => "Include file not found!".toList
  | .includeCycle => "Recursive include detected!".toList
  | .includeDepthExceeded => "Include nested too deeply!".toList
  | .userErrorDirective => "#error".toList
  | .userWarningDirective => "#warning".toList
  | .pragmaMessage => "#pragma message".toList
  | .invalidLineDirective => "Invalid #line directive (expected line number)!".toList
  | .invalidNumber => "Invalid numeric literal!".toList
  | .invalidCharacterLiteral => "Invalid character literal!".toList
  | .invalidEscapeSequence => "Unknown escape sequence in literal!".toList
  | .unterminatedString => "Unterminated string literal!".toList
  | .unterminatedChar => "Unterminated character literal!".toList
  | .unterminatedComment => "Unterminated block comment!".toList
  | .sourceUnreadable => "Source file cannot be read!".toList
  | .unlisted number =>
    let digits := Text.ofNat number.natAbs
    "Unknown error (code: ".toList ++ (if number < 0 then '-' :: digits else digits) ++ [')']

end Code

/-- One reported problem. -/
structure Diagnostic where
  severity : Severity
  code : Code
  message : Text
  /-- The shown name of the file. -/
  file : Text
  line : Nat
  column : Nat
  deriving DecidableEq, Repr

namespace Diagnostic

/-- A diagnostic in words, after its file and line. -/
def format (d : Diagnostic) : Text :=
  '[' :: d.file ++ ':' :: Text.ofNat d.line ++ "]: ".toList ++ d.message

/-- A diagnostic as a line of a log. -/
def logLine (d : Diagnostic) : Text :=
  '[' :: d.severity.name ++ "] ".toList ++ d.format ++ ['\n']

end Diagnostic

/-- The journal of reports. -/
structure Journal where
  /-- Everything reported so far, in order. -/
  entries : List Diagnostic := []
  /-- Wordings that replace the default ones, the latest first. -/
  wordings : List (Code × Text) := []
  /-- Whether reports are written to the log as they come. -/
  logging : Bool := true
  /-- The log so far. -/
  log : Text := []
  deriving Inhabited

namespace Journal

/-- The number of entries of a severity. -/
def count (journal : Journal) (severity : Severity) : Nat :=
  journal.entries.countP (·.severity == severity)

/-- The number of errors reported so far. -/
def errorCount (journal : Journal) : Nat :=
  journal.count .error

/-- The number of warnings reported so far. -/
def warningCount (journal : Journal) : Nat :=
  journal.count .warning

/-- Whether a problem has been reported. -/
def has (journal : Journal) (code : Code) : Bool :=
  journal.entries.any (·.code == code)

/-- The wording of a problem in this journal. -/
def message (journal : Journal) (code : Code) : Text :=
  match journal.wordings.find? (·.1 == code) with
  | some (_, wording) => wording
  | none => code.message

/-- Give a problem another wording from now on. -/
def reword (journal : Journal) (code : Code) (wording : Text) : Journal :=
  { journal with wordings := (code, wording) :: journal.wordings }

/-- Turn logging on or off. -/
def setLogging (journal : Journal) (logging : Bool) : Journal :=
  { journal with logging }

/-- Write down one diagnostic. -/
def add (journal : Journal) (d : Diagnostic) : Journal :=
  { journal with
    entries := journal.entries ++ [d]
    log := if journal.logging then journal.log ++ d.logLine else journal.log }

/-- The diagnostic that a report makes. An empty detail is left out. -/
def diagnose (journal : Journal) (severity : Severity) (code : Code) (file : Text)
    (line column : Nat) (detail : Text) : Diagnostic :=
  let wording := journal.message code
  let message := if detail = [] then wording else wording ++ " (".toList ++ detail ++ [')']
  ⟨severity, code, message, file, line, column⟩

/-- Report a problem at a place. -/
def reportAt (journal : Journal) (severity : Severity) (code : Code) (file : Text)
    (line column : Nat) (detail : Text) : Journal :=
  journal.add (journal.diagnose severity code file line column detail)

/-- Report a problem at a token, with the default severity. -/
def report (journal : Journal) (token : Token) (code : Code) (detail : Text) : Journal :=
  journal.reportAt code.severity code token.file.shown token.line token.column detail

end Journal

end CPreprocessor
