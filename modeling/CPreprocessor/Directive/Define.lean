/-
# Defining macros

`#define` reads a name, a parameter list if a parenthesis follows the name without
a blank, and a replacement list, which must be one that substitution can carry
out. `#undef` removes a macro.
-/
import CPreprocessor.Directive

namespace CPreprocessor

/-- Why a definition is refused. Without a token, the problem is at the place where the parameter list
opens. -/
structure DefinitionError where
  code : Code
  token : Option Token
  detail : Text

namespace ParameterList

/-- A list that is not well formed. -/
def malformed {α : Type} (token : Option Token) (detail : String) : Except DefinitionError α :=
  .error ⟨.invalidMacroParams, token, detail.toList⟩

/-- The end of a list after `...`. -/
def readEnd (p : Parameters) : List Token → Except DefinitionError (Parameters × List Token)
  | [] => malformed none "expected ')' after '...'"
  | token :: rest =>
    if token.isClose then .ok (p, rest) else malformed token "expected ')' after '...'"

/-- The token is `...`. -/
def isEllipsis (token : Token) : Bool :=
  token.isPunctuator ['.', '.', '.']

/-- The name for the variable arguments of a macro that gives them no name. -/
def variableArguments : Text :=
  "__VA_ARGS__".toList

/-- What is wrong with a token as the name of a parameter. -/
def nameError? (token : Token) : Option DefinitionError :=
  if !token.isName then
    some ⟨.invalidMacroParams, token,
      "expected parameter name, found ".toList ++ Directive.quoted token.lexeme⟩
  else if token.lexeme = variableArguments then
    some ⟨.invalidMacroParams, token, "__VA_ARGS__ can not be used as a parameter name".toList⟩
  else
    none

/-- Read parameters after the ones in `named`, up to the closing parenthesis. -/
def readFrom (named : List Text) : List Token → Except DefinitionError (Parameters × List Token)
  | [] => malformed none "missing ')' in macro parameter list"
  | token :: rest =>
    if isEllipsis token then
      readEnd ⟨named, some variableArguments⟩ rest
    else
      match nameError? token with
      | some error => .error error
      | none =>
        if rest.head?.any isEllipsis then
          readEnd ⟨named, some token.lexeme⟩ (rest.drop 1)
        else if named.contains token.lexeme then
          .error ⟨.duplicateMacroParam, token, Directive.quoted token.lexeme⟩
        else
          match rest with
          | [] => malformed none "expected ',' or ')' in macro parameter list"
          | separator :: rest =>
            if separator.isPunctuator [','] then
              readFrom (named ++ [token.lexeme]) rest
            else if separator.isClose then
              .ok (⟨named ++ [token.lexeme], none⟩, rest)
            else
              malformed separator "expected ',' or ')' in macro parameter list"

/-- Read a parameter list after its opening parenthesis. -/
def read : List Token → Except DefinitionError (Parameters × List Token)
  | [] => readFrom [] []
  | token :: rest => if token.isClose then .ok ({}, rest) else readFrom [] (token :: rest)

end ParameterList

namespace ReplacementList

/-- The first `#` of a function-like macro that is not followed by a parameter or by the optional
part. -/
def badHash? (p : Parameters) : List Token → Option Token
  | [] => none
  | token :: rest =>
    let operand := rest.head?.any fun next => (p.indexOf? next).isSome || p.isOptional next
    if token.isHash && !operand then some token else badHash? p rest

/-- What is wrong with a replacement list: `##` at one of its ends, or a `#` without its operand. Only
function-like macros give `#` a meaning. -/
def error? (name : Text) (parameters : Option Parameters) (body : List Token) :
    Option DefinitionError :=
  let paste (token : Option Token) : Option DefinitionError :=
    (token.filter Token.isPaste).map fun t => ⟨.invalidPastePosition, t, name⟩
  paste body.head? <|> paste body.getLast? <|>
    (parameters.bind fun p => badHash? p body).map fun t => ⟨.invalidStringize, t, name⟩

end ReplacementList

namespace Directive

/-- The macro that the tokens after its name define. -/
def readDefinition (name : Token) (tokens : List Token) : Except DefinitionError Macro :=
  let make (replacement : Replacement) : Macro :=
    { name := name.lexeme, replacement, definedAt := some name }
  let check (parameters : Option Parameters) (body : List Token) (m : Macro) :
      Except DefinitionError Macro :=
    match ReplacementList.error? name.lexeme parameters body with
    | some error => .error error
    | none => .ok m
  match tokens with
  | opening :: rest =>
    if opening.isOpen && !opening.afterSpace then
      match ParameterList.read rest with
      | .error error => .error { error with token := error.token <|> some opening }
      | .ok (p, body) => check (some p) body (make (.function p body))
    else
      check none tokens (make (.object tokens))
  | [] => check none [] (make (.object []))

/-- Define a macro. A definition that differs from the one before it counts, and is reported. -/
def define (d : Directive) (s : Session) : Session :=
  match d.macroName? s with
  | (none, s) => s
  | (some name, s) =>
    let s := s.reportSpellings d.args
    match readDefinition name (d.args.drop 1) with
    | .error error => s.report (error.token.getD name) error.code error.detail
    | .ok m =>
      let (outcome, macros) := s.macros.define m
      let s := { s with macros }
      if outcome = .redefined then s.report name .macroRedefined (quoted name.lexeme) else s

/-- Remove a macro. -/
def undef (d : Directive) (s : Session) : Session :=
  match d.macroName? s with
  | (none, s) => s
  | (some name, s) =>
    let s := s.reportSpellings d.args
    d.reportExtra 1 { s with macros := s.macros.erase name.lexeme }

end Directive

end CPreprocessor
