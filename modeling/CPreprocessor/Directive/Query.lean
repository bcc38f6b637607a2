/-
# Questions in conditions

A condition may ask whether a name is defined and whether a header can be found.
Each question is answered before macros are expanded, and again after that for
those that expansion has brought; the answer is the number one or zero. Other
questions, about what a compiler supports, are answered with zero.
-/
import CPreprocessor.Condition.Literal
import CPreprocessor.Directive

namespace CPreprocessor

/-- A question that a condition asks. -/
inductive Query where
  /-- Whether a name is defined. -/
  | defined (name : Text)
  /-- Whether the header that some tokens name can be found, perhaps only after the place where the
  present file was found. -/
  | header (onward : Bool) (inner : List Token)
  /-- Whether a compiler supports something. -/
  | feature

namespace Query

/-- The operator that asks for a header. -/
def hasInclude : Text :=
  "__has_include".toList

/-- The operator that asks for a further header. -/
def hasIncludeNext : Text :=
  "__has_include_next".toList

/-- The operators that ask what a compiler supports. -/
def featureOperators : List Text :=
  ["__has_cpp_attribute", "__has_c_attribute", "__has_attribute", "__has_builtin", "__has_feature",
    "__has_extension"].map String.toList

/-- The names of operators count as defined. -/
def operators : List Text :=
  hasInclude :: hasIncludeNext :: featureOperators

/-- A question that is asked in the wrong way. -/
structure Malformed where
  detail : Text

/-- Read what follows `defined`: a name, alone or in parentheses. -/
def readDefined (rest : List Token) : Except Malformed (Query × List Token) :=
  let requiresName : Malformed := ⟨"operator 'defined' requires an identifier".toList⟩
  match rest with
  | [] => .error requiresName
  | token :: after =>
    if token.isOpen then
      match after with
      | [] => .error requiresName
      | name :: after =>
        if !name.isName then
          .error requiresName
        else
          match after with
          | [] => .error ⟨"missing ')' after 'defined'".toList⟩
          | close :: after =>
            if close.isClose then
              .ok (.defined name.lexeme, after)
            else
              .error ⟨"missing ')' after 'defined'".toList⟩
    else if token.isName then
      .ok (.defined token.lexeme, after)
    else
      .error requiresName

/-- The question that `token :: rest` starts with, and what follows it. -/
def read? (token : Token) (rest : List Token) : Option (Except Malformed (Query × List Token)) :=
  if token.isNamed "defined".toList then
    some (readDefined rest)
  else if token.isNamed hasInclude || token.isNamed hasIncludeNext then
    some <|
      match Operation.parenthesized? rest with
      | some (inner, after) => .ok (.header (token.isNamed hasIncludeNext) inner, after)
      | none => .error ⟨"missing '(' or ')' after ".toList ++ token.lexeme⟩
  else if featureOperators.any token.isNamed && rest.head?.any Token.isOpen then
    some <|
      match Operation.parenthesized? rest with
      | some (_, after) => .ok (.feature, after)
      | none => .error ⟨"missing ')' after ".toList ++ token.lexeme⟩
  else
    none

theorem length_readDefined {rest after : List Token} {query : Query}
    (found : readDefined rest = .ok (query, after)) : after.length ≤ rest.length := by
  unfold readDefined at found
  simp only [] at found
  repeat' split at found
  all_goals cases found
  all_goals simp only [List.length_cons]; omega

/-- What follows a question is no longer than what followed its first token. -/
theorem length_read? {token : Token} {rest after : List Token} {query : Query}
    (found : read? token rest = some (.ok (query, after))) : after.length ≤ rest.length := by
  unfold read? at found
  split at found
  · exact length_readDefined (Option.some.inj found)
  · split at found
    · split at found
      · rename_i parens
        cases found
        have := Operation.length_parenthesized? parens
        omega
      · cases found
    · split at found
      · split at found
        · rename_i parens
          cases found
          have := Operation.length_parenthesized? parens
          omega
        · cases found
      · cases found

/-- A name is defined if it has a macro or is an operator. -/
def isDefined (s : Session) (name : Text) : Bool :=
  s.macros.isDefined name || operators.contains name

/-- Answer a question that `site` asks. -/
def answer (setup : Setup) (place : Place) (site : Token) (s : Session) :
    Query → Except Malformed Bool × Session
  | .defined name => (.ok (isDefined s name), s)
  | .feature => (.ok false, s)
  | .header onward inner =>
    match s.readHeaderName setup place inner with
    | (some name, tokens, s) =>
      if name.consumed = tokens.length then
        let (found, s) := s.findHeader setup place onward name
        (.ok found.isSome, s)
      else
        (.error ⟨site.lexeme ++ " requires a header name".toList⟩, s)
    | (none, _, s) => (.error ⟨site.lexeme ++ " requires a header name".toList⟩, s)

/-- The number that an answer is. -/
def answerToken (site : Token) (value : Bool) : Token :=
  let number : Token := { kind := .number, lexeme := if value then ['1'] else ['0'] }
  (number.placedAt site).withSpace site.afterSpace

/-- Put the answers in the place of all questions. The first question that is asked in the wrong way
ends that. -/
def answerAll (setup : Setup) (place : Place) :
    List Token → Session → Except Failure (List Token) × Session
  | [], s => (.ok [], s)
  | token :: rest, s =>
    match _found : read? token rest with
    | none =>
      let (more, s) := answerAll setup place rest s
      (more.map (token :: ·), s)
    | some (.error wrong) => (.error ⟨.invalidExpression, token, wrong.detail⟩, s)
    | some (.ok (query, after)) =>
      match query.answer setup place token s with
      | (.error wrong, s) => (.error ⟨.invalidExpression, token, wrong.detail⟩, s)
      | (.ok value, s) =>
        let (more, s) := answerAll setup place after s
        (more.map (answerToken token value :: ·), s)
  termination_by tokens => tokens.length
  decreasing_by
    · exact Nat.lt_succ_self _
    · exact Nat.lt_succ_of_le (length_read? _found)

end Query

end CPreprocessor
