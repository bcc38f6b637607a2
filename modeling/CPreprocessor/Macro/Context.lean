/-
# What expansion depends on

Expansion reads the macro table, the words of the language, the clock and the
nesting of files; it changes only the counter behind `__COUNTER__` and the
journal of reports.
-/
import CPreprocessor.Diagnostic
import CPreprocessor.Macro.Table
import CPreprocessor.Token.Spelling

namespace CPreprocessor

/-- A date and a time of day. Months and days are counted from one. -/
structure Clock where
  year : Nat
  month : Nat
  day : Nat
  hour : Nat
  minute : Nat
  second : Nat
  deriving DecidableEq, Repr, Inhabited

namespace Clock

/-- The short names of the months. -/
def months : List Text :=
  ["Jan", "Feb", "Mar", "Apr", "May", "Jun", "Jul", "Aug", "Sep", "Oct", "Nov", "Dec"].map
    String.toList

/-- A number with at least two characters. -/
def twoWide (filler : Char) (n : Nat) : Text :=
  if n < 10 then filler :: Text.ofNat n else Text.ofNat n

/-- The date as a string literal; the day is padded with a blank. -/
def dateLiteral (clock : Clock) : Text :=
  '"' :: months.getD (clock.month - 1) [] ++ ' ' :: twoWide ' ' clock.day
    ++ ' ' :: Text.ofNat clock.year ++ ['"']

/-- The time as a string literal. -/
def timeLiteral (clock : Clock) : Text :=
  '"' :: twoWide '0' clock.hour ++ ':' :: twoWide '0' clock.minute
    ++ ':' :: twoWide '0' clock.second ++ ['"']

end Clock

namespace Expansion

/-- What expansion reads. -/
structure Context where
  table : MacroTable
  language : Language
  clock : Clock
  /-- The number of files that include the present one. -/
  includeLevel : Nat
  /-- The name of the main file. -/
  baseFile : Text

/-- What expansion changes. -/
structure State where
  /-- The number that `__COUNTER__` gives next. -/
  counter : Nat := 0
  journal : Journal := {}
  deriving Inhabited

/-- Report a problem at a token. -/
def State.report (state : State) (token : Token) (code : Code) (detail : Text) : State :=
  { state with journal := state.journal.report token code detail }

/-- The kind and the text of the token that replaces a builtin macro. -/
def builtinText (ctx : Context) (counter : Nat) (site : Token) : Builtin → TokenKind × Text
  | .line => (.number, Text.ofNat site.line)
  | .file => (.string, Spelling.quote site.file.shown)
  | .counter => (.number, Text.ofNat counter)
  | .includeLevel => (.number, Text.ofNat ctx.includeLevel)
  | .baseFile => (.string, Spelling.quote ctx.baseFile)
  | .date => (.string, ctx.clock.dateLiteral)
  | .time => (.string, ctx.clock.timeLiteral)

/-- A token that replaces a call: at the place of the call, with the call's names hidden in it. -/
def replaced (site : Token) (hidden : HideSet) (token : Token) : Token :=
  { token.placedAt site with
    hideSet := token.hideSet.union hidden
    calls := site.callSite :: site.calls
    atLineStart := false }

/-- The tokens that replace a call. The first one starts a line or follows a blank as the call
did. -/
def replacement (site : Token) (hidden : HideSet) : List Token → List Token
  | [] => []
  | token :: rest =>
    { replaced site hidden token with
      atLineStart := site.atLineStart, afterSpace := site.afterSpace }
      :: rest.map (replaced site hidden)

/-- The token that replaces a builtin macro, and the state after it. -/
def expandBuiltin (ctx : Context) (kind : Builtin) (site : Token) (state : State) : Token × State :=
  let (tokenKind, lexeme) := builtinText ctx state.counter site kind
  let token := replaced site (site.hideSet.union [kind.name]) { kind := tokenKind, lexeme }
  ({ token with atLineStart := site.atLineStart, afterSpace := site.afterSpace },
    if kind = .counter then { state with counter := state.counter + 1 } else state)

/-- Every name that a call hides is hidden in every token that replaces it. -/
theorem hidden_of_mem_replacement {site : Token} {hidden : HideSet} {body : List Token}
    {token : Token} (member : token ∈ replacement site hidden body) {name : Text}
    (inHidden : name ∈ hidden) : name ∈ token.hideSet := by
  match body with
  | [] => simp [replacement] at member
  | head :: rest =>
    rcases List.mem_cons.mp member with rfl | later
    · exact HideSet.mem_union.mpr (.inr inHidden)
    · obtain ⟨unpainted, _, rfl⟩ := List.mem_map.mp later
      exact HideSet.mem_union.mpr (.inr inHidden)

end Expansion

end CPreprocessor
