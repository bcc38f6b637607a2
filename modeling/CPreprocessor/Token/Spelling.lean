/-
# Tokens as text

Tokens are written back as text that reads as the same tokens: a blank stands where
white space stood, and between two lexemes that would otherwise run together.
String literals are quoted here and unquoted again.
-/
import CPreprocessor.Token.Lexer

namespace CPreprocessor

namespace Spelling

/-- A text with a backslash before every double quote and backslash. -/
def escape (text : Text) : Text :=
  text.flatMap fun c => if c = '"' || c = '\\' then ['\\', c] else [c]

/-- A text as a string literal. -/
def quote (text : Text) : Text :=
  '"' :: escape text ++ ['"']

/-- A text without the backslashes before double quotes and backslashes. -/
def unescape : Text → Text
  | '\\' :: '"' :: rest => '"' :: unescape rest
  | '\\' :: '\\' :: rest => '\\' :: unescape rest
  | c :: rest => c :: unescape rest
  | [] => []

/-- What stands between the first and the last double quote of a lexeme, if there are two. -/
def betweenQuotes? (lexeme : Text) : Option Text :=
  match lexeme.dropWhile (· ≠ '"') with
  | _ :: rest =>
    if rest.contains '"' then
      some ((rest.reverse.dropWhile (· ≠ '"')).drop 1).reverse
    else
      none
  | [] => none

/-- The content of a string literal, whatever its prefix. -/
def content? (lexeme : Text) : Option Text :=
  (betweenQuotes? lexeme).map unescape

/-- Characters that never run together with a neighbour. -/
def closedCharacters : Text :=
  "()[]\x7b\x7d;,".toList

/-- Whether two lexemes need a blank between them to be read as themselves. -/
def needSeparator (left right : Text) : Bool :=
  if left = [] || right = [] then
    false
  else if closedCharacters.contains (left.getLastD Text.nul)
      || closedCharacters.contains (Text.first right) then
    false
  else
    match CPreprocessor.tokenize (left ++ right) none .standard with
    | .error _ => true
    | .ok tokens => (tokens.map Token.lexeme).dropLast ≠ [left, right]

/-- The tokens of one line after a previous token. -/
def joinAfter (previous : Token) : List Token → Text
  | [] => []
  | token :: rest =>
    if token.isEnd then
      []
    else
      let gap := if token.afterSpace || needSeparator previous.lexeme token.lexeme then [' '] else []
      gap ++ token.lexeme ++ joinAfter token rest

/-- The tokens of one line, up to the end of the file. -/
def join : List Token → Text
  | [] => []
  | token :: rest => if token.isEnd then [] else token.lexeme ++ joinAfter token rest

/-- What was written last when tokens are written on lines. -/
structure Printer where
  /-- Whether line markers are written. -/
  markers : Bool
  /-- The last token written. -/
  previous : Option Token := none
  /-- The file that the last marker named. -/
  file : Option FileRef := none
  /-- The line that the output is on, in the numbering of the source. -/
  line : Nat := 0

namespace Printer

/-- A marker may be left out when the file stays the same and at most this many lines are
skipped; empty lines stand for them. -/
def skippedLines : Nat := 8

/-- The line marker for a token. -/
def marker (token : Token) : Text :=
  "# ".toList ++ Text.ofNat token.line ++ " \"".toList ++ token.file.shown ++ "\"\n".toList

/-- What is written before a token. -/
def before (p : Printer) (token : Token) : Text :=
  let lineEnd := if p.previous.isSome then ['\n'] else []
  if p.previous.isNone || token.atLineStart then
    if p.markers then
      let sameFile := p.file.any fun f => f.number = token.file.number && f.shown = token.file.shown
      if !sameFile || token.line < p.line || (p.line + skippedLines) % Nat.pow 2 32 < token.line then
        lineEnd ++ marker token
      else
        lineEnd ++ List.replicate (token.line - p.line - 1) '\n'
    else
      lineEnd
  else if token.afterSpace || p.previous.any (needSeparator ·.lexeme token.lexeme) then
    [' ']
  else
    []

/-- The printer after a token. -/
def afterToken (p : Printer) (token : Token) : Printer :=
  if p.markers && (p.previous.isNone || token.atLineStart) then
    { p with previous := some token, file := some token.file, line := token.line }
  else
    { p with previous := some token }

/-- The lines that tokens form, up to the end of the file. -/
def write (p : Printer) : List Token → Text
  | [] => if p.previous.isSome then ['\n'] else []
  | token :: rest =>
    if token.isEnd then
      if p.previous.isSome then ['\n'] else []
    else
      p.before token ++ token.lexeme ++ write (p.afterToken token) rest

end Printer

/-- Tokens as lines of text. With markers, a line of the form `# line "file"` stands wherever the
file changes or the line numbers jump. -/
def render (markers : Bool) (tokens : List Token) : Text :=
  Printer.write { markers } tokens

/-- One token in words: its place, its kind and its lexeme. -/
def describe (token : Token) : Text :=
  token.file.shown ++ ':' :: Text.ofNat token.line ++ ':' :: Text.ofNat token.column
    ++ ' ' :: token.kind.name ++ ' ' :: token.lexeme

end Spelling

end CPreprocessor
