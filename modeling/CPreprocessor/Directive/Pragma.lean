/-
# Pragmas

Some pragmas mean something: `once`, `push_macro` and `pop_macro`, `message`, and
`GCC warning` and `GCC error`. The others are ignored. If pragmas are passed on,
only the first three do not go into the output.
-/
import CPreprocessor.Directive

namespace CPreprocessor.Directive

/-- The name in the parentheses of `push_macro` and `pop_macro`. -/
def savedName? : List Token → Option Text
  | opening :: name :: close :: _ =>
    if opening.isOpen && name.kind = .string && close.isClose then
      some ((Spelling.content? name.lexeme).getD name.lexeme)
    else
      none
  | _ => none

/-- The text of a message: the strings among the expanded tokens, or the tokens if none is a
string. -/
def messageText (expanded : List Token) : Text :=
  let strings := expanded.filter (·.kind = .string)
  if strings = [] then
    Spelling.join expanded
  else
    strings.flatMap fun token => (Spelling.content? token.lexeme).getD token.lexeme

/-- Report the message that some tokens of a pragma give. -/
def reportMessage (d : Directive) (setup : Setup) (place : Place) (code : Code)
    (tokens : List Token) (s : Session) : Session :=
  let (expanded, s) := s.expand setup place tokens
  s.report d.hash code (messageText expanded)

/-- The problem that `GCC warning` or `GCC error` reports. -/
def userCode? (token : Token) : Option Code :=
  if token.isNamed "warning".toList then some .userWarningDirective
  else if token.isNamed "error".toList then some .userErrorDirective
  else none

/-- Carry out a pragma. -/
def pragma (d : Directive) (setup : Setup) (place : Place) (s : Session) : Action × Session :=
  match d.args with
  | [] => (.nothing, s)
  | first :: rest =>
    if first.isNamed "once".toList then
      (.once, d.reportExtra 1 s)
    else if first.isNamed "push_macro".toList then
      match savedName? rest with
      | some name => (.nothing, { s with macros := s.macros.push name })
      | none => (.nothing, s)
    else if first.isNamed "pop_macro".toList then
      match savedName? rest with
      | some name => (.nothing, { s with macros := (s.macros.pop name).2 })
      | none => (.nothing, s)
    else if setup.config.passesPragmas then
      (.pass, s)
    else if first.isNamed "message".toList then
      (.nothing, d.reportMessage setup place .pragmaMessage rest s)
    else if first.isNamed "GCC".toList then
      match rest.head?.bind userCode? with
      | some code => (.nothing, d.reportMessage setup place code (rest.drop 1) s)
      | none => (.nothing, s)
    else
      (.nothing, s)

end CPreprocessor.Directive
