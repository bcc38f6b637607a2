/-
# Macro calls

What the head of a token list asks for: a token that stays as it is, a builtin
macro, a call that is replaced, or a call whose arguments do not fit, which is
reported and stays as it is.
-/
import CPreprocessor.Macro.Arguments
import CPreprocessor.Macro.Table

namespace CPreprocessor

/-- A macro call that is to be replaced. -/
structure Call where
  called : Macro
  /-- The name of the macro where it is called. -/
  site : Token
  arguments : List (List Token)
  /-- The names hidden in every token that the call is replaced by. -/
  hidden : HideSet
  /-- The tokens after the call. -/
  rest : List Token

/-- What the head of a token list asks for. -/
inductive Head where
  /-- The first token is not expanded. -/
  | plain (token : Token) (rest : List Token)
  | builtin (kind : Builtin) (site : Token) (rest : List Token)
  /-- The first token is not expanded because its arguments do not fit the macro. -/
  | rejected (code : Code) (site : Token) (rest : List Token)
  | call (call : Call)

namespace Head

/-- The head of `site :: rest`, where `site` calls a macro. A function-like macro without a
parenthesis after it is no call. A call hides the names that are hidden both in its first and in its
last token, and the name of the macro. -/
def ofMacro (m : Macro) (site : Token) (rest : List Token) : Head :=
  match m.replacement with
  | .builtin kind => .builtin kind site rest
  | .object _ =>
    .call { called := m, site, arguments := [], hidden := site.hideSet.union [m.name], rest }
  | .function p _ =>
    match rest with
    | [] => .plain site rest
    | opening :: inner =>
      if opening.isOpen then
        match Arguments.read (Arguments.separators p) 0 inner with
        | none => .rejected .mismatchedParens site rest
        | some a =>
          match Arguments.fit p a.pieces with
          | .error code => .rejected code site rest
          | .ok arguments =>
            .call { called := m, site, arguments,
                    hidden := (site.hideSet.inter a.close.hideSet).union [m.name], rest := a.rest }
      else
        .plain site rest

/-- A token calls the macro of its name unless that name is hidden in it. -/
def called? (table : MacroTable) (token : Token) : Option Macro :=
  if token.verbatim then
    none
  else
    (table.findToken? token).filter fun m => !token.hideSet.contains m.name

/-- The head of `token :: rest`, where `token` does not end the file. -/
def ofToken (table : MacroTable) (token : Token) (rest : List Token) : Head :=
  match called? table token with
  | none => .plain token rest
  | some m => ofMacro m token rest

/-- The head of a token list; at the end of the file there is none. -/
def read (table : MacroTable) : List Token → Option Head
  | [] => none
  | token :: rest => if token.isEnd then none else some (ofToken table token rest)

end Head

end CPreprocessor
