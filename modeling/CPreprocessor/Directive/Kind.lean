/-
# Kinds of directives

The first token after `#` says which directive a line is. A number makes it a
line marker; a name that no directive has makes it unknown.
-/
import CPreprocessor.Token

namespace CPreprocessor

/-- The directives. -/
inductive DirectiveKind where
  | define
  | undef
  | includeHeader
  | includeNext
  | ifExpression
  | ifdef
  | ifndef
  | elif
  | elifdef
  | elifndef
  | elseBranch
  | endif
  | error
  | warning
  | pragma
  | line
  /-- `# 12 "file"`, as preprocessors write it into their output. -/
  | lineMarker
  /-- A `#` alone on its line. -/
  | null
  | unknown
  deriving DecidableEq, Repr

namespace DirectiveKind

/-- The directives with their names. -/
def named : List (Text × DirectiveKind) :=
  [("define".toList, define), ("undef".toList, undef), ("include".toList, includeHeader),
    ("include_next".toList, includeNext), ("if".toList, ifExpression), ("ifdef".toList, ifdef),
    ("ifndef".toList, ifndef), ("elif".toList, elif), ("elifdef".toList, elifdef),
    ("elifndef".toList, elifndef), ("else".toList, elseBranch), ("endif".toList, endif),
    ("error".toList, error), ("warning".toList, warning), ("pragma".toList, pragma),
    ("line".toList, line)]

/-- The directive that the first token after `#` makes. -/
def ofName : Option Token → DirectiveKind
  | none => null
  | some token =>
    if token.kind = .number then lineMarker
    else if token.isName then (named.lookup token.lexeme).getD unknown
    else unknown

/-- The directives that open, divide and close conditionals; they are read even where nothing
counts. -/
def isConditional : DirectiveKind → Bool
  | ifExpression | ifdef | ifndef | elif | elifdef | elifndef | elseBranch | endif => true
  | _ => false

end DirectiveKind

end CPreprocessor
