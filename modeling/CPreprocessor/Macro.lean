/-
# Macros

A macro is a name with what replaces it. An object-like macro is replaced by its
body alone; a function-like one also takes arguments, the last of which may
stand for any number of them; a builtin macro is replaced by one token that
depends on where and when it is called.
-/
import CPreprocessor.Token

namespace CPreprocessor

/-- The macros that need no definition. -/
inductive Builtin where
  | line
  | file
  | counter
  | includeLevel
  | baseFile
  | date
  | time
  deriving DecidableEq, Repr

namespace Builtin

/-- Every builtin macro. -/
def all : List Builtin :=
  [.line, .file, .counter, .includeLevel, .baseFile, .date, .time]

/-- The name a builtin macro is called by. -/
def name : Builtin → Text
  | .line => "__LINE__".toList
  | .file => "__FILE__".toList
  | .counter => "__COUNTER__".toList
  | .includeLevel => "__INCLUDE_LEVEL__".toList
  | .baseFile => "__BASE_FILE__".toList
  | .date => "__DATE__".toList
  | .time => "__TIME__".toList

end Builtin

/-- The parameters of a macro. An object-like macro has none. -/
structure Parameters where
  /-- The parameters that stand for one argument each. -/
  named : List Text := []
  /-- The name that stands for all further arguments, if there may be any. -/
  variadic : Option Text := none
  deriving DecidableEq, Repr, Inhabited

namespace Parameters

/-- The position of the argument that a name stands for. The variable arguments come after the
named ones. -/
def index? (p : Parameters) (name : Text) : Option Nat :=
  match p.named.findIdx? (· == name) with
  | some i => some i
  | none => if p.variadic == some name then some p.named.length else none

/-- The position of the argument that a token stands for. -/
def indexOf? (p : Parameters) (token : Token) : Option Nat :=
  if token.isName then p.index? token.lexeme else none

/-- A token that stands for the variable arguments. -/
def isVariadicAt (p : Parameters) (token : Token) : Bool :=
  p.variadic.isSome && p.indexOf? token == some p.named.length

/-- The operator `__VA_OPT__`, which only a variadic macro has. -/
def isOptional (p : Parameters) (token : Token) : Bool :=
  p.variadic.isSome && token.isNamed "__VA_OPT__".toList

end Parameters

/-- What replaces a macro. -/
inductive Replacement where
  | builtin (kind : Builtin)
  | object (body : List Token)
  | function (parameters : Parameters) (body : List Token)

/-- A macro definition. -/
structure Macro where
  name : Text
  replacement : Replacement
  /-- The name where it was defined; a builtin macro is defined nowhere. -/
  definedAt : Option Token := none

namespace Macro

/-- The replacement list; a builtin macro has an empty one. -/
def body (m : Macro) : List Token :=
  match m.replacement with
  | .builtin _ => []
  | .object body => body
  | .function _ body => body

/-- The parameters; only a function-like macro can have some. -/
def parameters (m : Macro) : Parameters :=
  match m.replacement with
  | .function parameters _ => parameters
  | _ => {}

/-- The macro takes arguments. -/
def isFunctionLike (m : Macro) : Bool :=
  match m.replacement with
  | .function _ _ => true
  | _ => false

/-- The builtin macro that this one is, if it is one. -/
def builtin? (m : Macro) : Option Builtin :=
  match m.replacement with
  | .builtin kind => some kind
  | _ => none

/-- Two replacement lists with the same lexemes and white space between the same of them. -/
def sameBody (a b : List Token) : Bool :=
  a.map (·.lexeme) == b.map (·.lexeme) && (a.drop 1).map (·.afterSpace) == (b.drop 1).map (·.afterSpace)

/-- Two definitions that a redefinition may exchange without notice. -/
def sameDefinition (a b : Macro) : Bool :=
  a.builtin? == b.builtin? && a.isFunctionLike == b.isFunctionLike
    && a.parameters == b.parameters && sameBody a.body b.body

end Macro

end CPreprocessor
