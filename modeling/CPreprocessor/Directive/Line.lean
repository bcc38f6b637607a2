/-
# Line directives

`#line` and the line markers of other preprocessors say how the next line is
numbered and how its file is called. The arguments of `#line` may come from macros.
-/
import CPreprocessor.Directive

namespace CPreprocessor

/-- Why a line directive is refused. -/
structure LineError where
  token : Token
  detail : Text

namespace LineArguments

/-- The greatest line number that a directive may give. -/
def greatestLine : Nat := 2147483647

/-- The number that digits after `sofar` make. The first character that is no digit, or that makes
the number too large, is what is wrong with it. -/
def readNumber (token : Token) (sofar : Nat) : Text → Except LineError Nat
  | [] => .ok sofar
  | c :: rest =>
    if !c.isDigit then
      .error ⟨token, '"' :: token.lexeme ++ "\" is not a positive integer".toList⟩
    else
      let number := sofar * 10 + Text.digitValue c
      if greatestLine < number then
        .error ⟨token, "line number out of range".toList⟩
      else
        readNumber token number rest

/-- The name in a string literal without a prefix. -/
def readName (token : Token) : Except LineError Text :=
  if token.kind = .string && token.lexeme.head? = some '"' then
    .ok ((Spelling.content? token.lexeme).getD token.lexeme)
  else
    .error ⟨token, "invalid filename '".toList ++ token.lexeme ++ ['\'']⟩

/-- The line and the name that arguments give. Without a line, the problem is at `name`. -/
def read (name : Token) : List Token → Except LineError (Nat × Option Text)
  | [] => .error ⟨name, []⟩
  | first :: rest =>
    if first.kind ≠ .number then
      .error ⟨first, Spelling.join (first :: rest)⟩
    else
      match readNumber first 0 first.lexeme with
      | .error error => .error error
      | .ok line =>
        match rest with
        | [] => .ok (line, none)
        | file :: _ => (readName file).map fun shown => (line, some shown)

end LineArguments

namespace Directive

/-- The arguments of a line directive. A line marker has its line in the place of a name. -/
def lineArguments (d : Directive) (setup : Setup) (place : Place) (s : Session) :
    List Token × Session :=
  if d.kind = .lineMarker then
    (d.nameToken :: d.args, s)
  else
    let s := s.reportSpellings d.args
    if d.args.head?.any (·.kind ≠ .number) then s.expand setup place d.args else (d.args, s)

/-- Carry out a line directive. A line marker may end with flags, which mean nothing here. -/
def presentLine (d : Directive) (setup : Setup) (place : Place) (s : Session) : Action × Session :=
  if !setup.config.appliesLines then
    (.pass, s)
  else
    let (tokens, s) := d.lineArguments setup place s
    match LineArguments.read d.nameToken tokens with
    | .error error => (.nothing, s.report error.token .invalidLineDirective error.detail)
    | .ok (line, name) =>
      let s := match tokens.drop 2 with
        | extra :: _ => if d.kind = .lineMarker then s else s.report extra .extraTokens "#line".toList
        | [] => s
      (.present line name, s)

end Directive

end CPreprocessor
