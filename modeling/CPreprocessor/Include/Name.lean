/-
# Names of headers

A header is named by a string, or by the tokens between `<` and `>`. A quoted name
is taken as it stands, without regard to escape sequences.
-/
import CPreprocessor.Token

namespace CPreprocessor

/-- The two ways to name a header. -/
inductive IncludeForm where
  /-- `"file.h"`, looked for next to the including file first. -/
  | quoted
  /-- `<file.h>`, looked for on the search path only. -/
  | angled
  deriving DecidableEq, Repr

/-- A header name and the number of tokens it takes. -/
structure IncludeName where
  name : Text
  form : IncludeForm
  consumed : Nat
  deriving DecidableEq, Repr

namespace IncludeName

/-- The name as it is spelled in a directive. -/
def spelled (n : IncludeName) : Text :=
  match n.form with
  | .quoted => '"' :: n.name ++ ['"']
  | .angled => '<' :: n.name ++ ['>']

/-- The lexemes up to `>`, with one blank for white space between them, and the number of tokens read,
that of `>` included. -/
def upToClose? (isFirst : Bool) : List Token → Option (Text × Nat)
  | [] => none
  | token :: rest =>
    if token.isPunctuator ['>'] then
      some ([], 1)
    else
      (upToClose? false rest).map fun (name, count) =>
        ((if token.afterSpace && !isFirst then [' '] else []) ++ token.lexeme ++ name, count + 1)

/-- The header name at the front of some tokens. -/
def read? : List Token → Option IncludeName
  | [] => none
  | token :: rest =>
    if token.kind = .string && 2 ≤ token.lexeme.length && token.lexeme.head? = some '"'
        && token.lexeme.getLast? = some '"' then
      some ⟨(token.lexeme.drop 1).dropLast, .quoted, 1⟩
    else if token.isPunctuator ['<'] then
      match upToClose? true rest with
      | some (name, count) => if name = [] then none else some ⟨name, .angled, count + 1⟩
      | none => none
    else
      none

end IncludeName

end CPreprocessor
