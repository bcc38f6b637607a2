/-
# Directives

A directive is a line that starts with `#`. Carrying it out changes the session
and may ask the reader of the file for more: to enter a header, to number lines
anew, to pass the line on, or to remember that the file is to be read once.
-/
import CPreprocessor.Directive.Kind
import CPreprocessor.Directive.Session

namespace CPreprocessor

/-- A line that starts with `#`. -/
structure Directive where
  hash : Token
  /-- The first token after `#`. -/
  name : Option Token
  /-- The tokens after that. -/
  args : List Token

/-- What the reader of the file has to do after a directive. -/
inductive Action where
  | nothing
  /-- Read a header, which was asked for at a token. -/
  | enter (header : Header) (site : Token)
  /-- Number the next line anew, and show the file under a name if one is given. -/
  | present (line : Nat) (name : Option Text)
  /-- Pass the line on. -/
  | pass
  /-- Do not read the file again. -/
  | once

namespace Directive

/-- The directive that the line is. -/
def kind (d : Directive) : DirectiveKind :=
  .ofName d.name

/-- The token that names the directive. -/
def nameToken (d : Directive) : Token :=
  d.name.getD d.hash

/-- The directive as messages call it. -/
def title (d : Directive) : Text :=
  '#' :: d.nameToken.lexeme

/-- All tokens of the line. -/
def tokens (d : Directive) : List Token :=
  d.hash :: (d.name.toList ++ d.args)

/-- Report the first token after the ones that were used. -/
def reportExtra (d : Directive) (used : Nat) (s : Session) : Session :=
  match d.args.drop used with
  | [] => s
  | token :: _ => s.report token .extraTokens d.title

/-- A name in single quotes. -/
def quoted (name : Text) : Text :=
  '\'' :: name ++ ['\'']

/-- The macro name that the directive starts with; if it starts with none, that is reported. -/
def macroName? (d : Directive) (s : Session) : Option Token × Session :=
  match d.args with
  | [] => (none, s.report d.nameToken .invalidMacroName ("no macro name given in ".toList ++ d.title))
  | token :: _ =>
    if !token.isName then
      (none, s.report token .invalidMacroName (quoted token.lexeme))
    else if token.lexeme = "defined".toList then
      (none, s.report token .invalidMacroName "'defined' cannot be used as a macro name".toList)
    else
      (some token, s)

end Directive

end CPreprocessor
