/-
# Tokens

A token is a lexeme with its kind, its place in a source, and what macro
expansion needs to know about it: the names that may no longer expand in it and
the macro calls it came from.
-/
import CPreprocessor.Text

namespace CPreprocessor

/-- The kinds of preprocessing tokens. Comments and white space are tokens only where a
lexer keeps them. -/
inductive TokenKind where
  | keyword
  | punctuator
  | identifier
  | number
  | string
  | character
  | comment
  | whitespace
  | endOfFile
  deriving DecidableEq, Repr, Inhabited

/-- The word for a kind in token listings. -/
def TokenKind.name : TokenKind → Text
  | .keyword => "KEYWORD".toList
  | .punctuator => "PUNCTUATOR".toList
  | .identifier => "IDENTIFIER".toList
  | .number => "NUMBER".toList
  | .string => "STRING".toList
  | .character => "CHARACTER".toList
  | .comment => "COMMENT".toList
  | .whitespace => "WHITESPACE".toList
  | .endOfFile => "EOF".toList

/-- What can be wrong with the spelling of one token. -/
inductive LexError where
  | invalidNumber
  | invalidCharacterLiteral
  | invalidEscapeSequence
  | unterminatedString
  | unterminatedChar
  | unterminatedComment
  deriving DecidableEq, Repr

/-- The file a token belongs to. The shown name may differ from the path after a line
directive. -/
structure FileRef where
  /-- The path the file was opened with. -/
  path : Text
  /-- The name shown in messages and by `__FILE__`. -/
  shown : Text
  /-- A number that tells the files of one run apart. -/
  number : Nat
  deriving DecidableEq, Repr

/-- The file of a token that belongs to none. -/
def FileRef.unknown : FileRef :=
  ⟨[], "unknown".toList, 0⟩

instance : Inhabited FileRef := ⟨.unknown⟩

/-- A macro name where it was called: what an expanded token remembers of the call. -/
structure CallSite where
  lexeme : Text
  file : FileRef
  line : Nat
  column : Nat
  offset : Nat
  deriving DecidableEq, Repr

/-- The macro names that are no longer expanded in a token. -/
abbrev HideSet := List Text

namespace HideSet

/-- The names of either set. -/
def union (a b : HideSet) : HideSet :=
  b.foldr List.insert a

/-- The names of both sets. -/
def inter (a b : HideSet) : HideSet :=
  a.filter b.contains

theorem mem_union {a b : HideSet} {name : Text} : name ∈ a.union b ↔ name ∈ a ∨ name ∈ b := by
  induction b with
  | nil => simp [union]
  | cons head rest ih =>
    have unfolded : union a (head :: rest) = List.insert head (union a rest) := rfl
    rw [unfolded, List.mem_insert_iff, ih, List.mem_cons]
    constructor
    · rintro (h | h | h) <;> simp [h]
    · rintro (h | h | h) <;> simp [h]

theorem mem_inter {a b : HideSet} {name : Text} : name ∈ a.inter b ↔ name ∈ a ∧ name ∈ b := by
  simp [inter]

end HideSet

/-- A preprocessing token. -/
structure Token where
  kind : TokenKind
  /-- The text of the token. -/
  lexeme : Text
  file : FileRef := .unknown
  /-- The line, counted from one, as line directives present it. -/
  line : Nat := 1
  column : Nat := 0
  /-- The number of bytes before the token in its physical file. -/
  offset : Nat := 0
  /-- Whether it is the first token of its logical line. -/
  atLineStart : Bool := false
  /-- Whether white space or a comment stands before it. -/
  afterSpace : Bool := false
  /-- Whether it belongs to a directive that is passed on as it is, so it never expands. -/
  verbatim : Bool := false
  hideSet : HideSet := []
  /-- The macro calls it came from, the nearest first. -/
  calls : List CallSite := []
  error : Option LexError := none
  deriving DecidableEq, Repr

namespace Token

/-- The token that ends a file. -/
def endOfFile (file : FileRef) (line : Nat) (column offset : Nat) : Token :=
  { kind := .endOfFile, lexeme := [], file, line, column, offset, atLineStart := true }

/-- An end of file that belongs to no file. -/
def endOfNothing : Token :=
  endOfFile .unknown 1 0 0

instance : Inhabited Token := ⟨endOfNothing⟩

/-- The token ends a file. -/
def isEnd (token : Token) : Bool :=
  token.kind == .endOfFile

/-- The token is the given punctuator. -/
def isPunctuator (token : Token) (lexeme : Text) : Bool :=
  token.kind == .punctuator && token.lexeme == lexeme

/-- The token is `(`. -/
def isOpen (token : Token) : Bool :=
  token.isPunctuator ['(']

/-- The token is `)`. -/
def isClose (token : Token) : Bool :=
  token.isPunctuator [')']

/-- The token is `#` or its other spelling `%:`, which start directives and make strings. -/
def isHash (token : Token) : Bool :=
  token.isPunctuator ['#'] || token.isPunctuator ['%', ':']

/-- The token is `##` or its other spelling `%:%:`, which paste tokens. -/
def isPaste (token : Token) : Bool :=
  token.isPunctuator ['#', '#'] || token.isPunctuator ['%', ':', '%', ':']

/-- The token is a name: keywords may name macros as identifiers do. -/
def isName (token : Token) : Bool :=
  token.kind == .identifier || token.kind == .keyword

/-- The token is the given name. -/
def isNamed (token : Token) (name : Text) : Bool :=
  token.isName && token.lexeme == name

/-- The call of a macro that the token names. -/
def callSite (token : Token) : CallSite :=
  ⟨token.lexeme, token.file, token.line, token.column, token.offset⟩

/-- The token with another answer to whether space stands before it. -/
def withSpace (token : Token) (afterSpace : Bool) : Token :=
  { token with afterSpace }

/-- The token at the place of another one. -/
def placedAt (token : Token) (place : Token) : Token :=
  { token with file := place.file, line := place.line, column := place.column, offset := place.offset }

variable {token : Token} {symbol : Text}

theorem isPunctuator_iff :
    token.isPunctuator symbol = true ↔ token.kind = .punctuator ∧ token.lexeme = symbol := by
  simp [isPunctuator]

/-- A punctuator is no other one. -/
theorem isPunctuator_of_isPunctuator (isSymbol : token.isPunctuator symbol = true) (other : Text) :
    token.isPunctuator other = (symbol == other) := by
  obtain ⟨kind, rfl⟩ := isPunctuator_iff.mp isSymbol
  simp [isPunctuator, kind]

theorem isName_of_isPunctuator (isSymbol : token.isPunctuator symbol = true) :
    token.isName = false := by
  obtain ⟨kind, -⟩ := isPunctuator_iff.mp isSymbol
  simp [isName, kind]

theorem isPunctuator_of_isName (isName : token.isName = true) (symbol : Text) :
    token.isPunctuator symbol = false := by
  rw [← Bool.not_eq_true]
  intro isSymbol
  rw [isName_of_isPunctuator isSymbol] at isName
  cases isName

theorem isNamed_of_isPunctuator (isSymbol : token.isPunctuator symbol = true) (name : Text) :
    token.isNamed name = false := by
  simp [isNamed, isName_of_isPunctuator isSymbol]

/-- A token that makes a string is a punctuator with one of two spellings. -/
theorem isHash_iff :
    token.isHash = true ↔ token.isPunctuator ['#'] = true ∨ token.isPunctuator ['%', ':'] = true :=
  Bool.or_eq_true_iff

theorem isOpen_of_isHash (isHash : token.isHash = true) : token.isOpen = false := by
  obtain isSymbol | isSymbol := isHash_iff.mp isHash <;>
    exact isPunctuator_of_isPunctuator isSymbol _

theorem isClose_of_isHash (isHash : token.isHash = true) : token.isClose = false := by
  obtain isSymbol | isSymbol := isHash_iff.mp isHash <;>
    exact isPunctuator_of_isPunctuator isSymbol _

theorem isPaste_of_isHash (isHash : token.isHash = true) : token.isPaste = false := by
  obtain isSymbol | isSymbol := isHash_iff.mp isHash <;>
    simp [isPaste, isPunctuator_of_isPunctuator isSymbol]

theorem isName_of_isHash (isHash : token.isHash = true) : token.isName = false := by
  obtain isSymbol | isSymbol := isHash_iff.mp isHash <;>
    exact isName_of_isPunctuator isSymbol

end Token

end CPreprocessor
