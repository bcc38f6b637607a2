/-
# How formulas are written

A formula may be written with or without the parentheses that it does not need.
`Prints` says which lists of tokens are such writings: it is the grammar of the
language, with one level for each precedence, and says nothing about reading.
-/
import CPreprocessor.Proofs.Condition.Meaning

namespace CPreprocessor

/-- The punctuator that an operator with one operand is written with. -/
def UnaryOp.symbol : UnaryOp → Text
  | plus => ['+']
  | minus => ['-']
  | logicalNot => ['!']
  | bitNot => ['~']

/-- The punctuator that an operator with two operands is written with. -/
def BinaryOp.symbol : BinaryOp → Text
  | mul => ['*']
  | div => ['/']
  | mod => ['%']
  | add => ['+']
  | sub => ['-']
  | shiftLeft => ['<', '<']
  | shiftRight => ['>', '>']
  | less => ['<']
  | greater => ['>']
  | lessEqual => ['<', '=']
  | greaterEqual => ['>', '=']
  | equal => ['=', '=']
  | notEqual => ['!', '=']
  | bitAnd => ['&']
  | bitXor => ['^']
  | bitOr => ['|']
  | logicalAnd => ['&', '&']
  | logicalOr => ['|', '|']

/-- The operators with two operands as the language ranks them: those of one row bind alike, and tighter
than those of the rows below. -/
def BinaryOp.ranks : List (List BinaryOp) :=
  [[mul, div, mod],
    [add, sub],
    [shiftLeft, shiftRight],
    [less, greater, lessEqual, greaterEqual],
    [equal, notEqual],
    [bitAnd],
    [bitXor],
    [bitOr],
    [logicalAnd],
    [logicalOr]]

/-- The row of an operator, counted from one. -/
def BinaryOp.rank (op : BinaryOp) : Nat :=
  ranks.findIdx (·.contains op) + 1

/-- Expressions are read with the ranks of the language. -/
theorem BinaryOp.rank_eq_level (op : BinaryOp) : op.rank = op.level := by
  cases op <;> rfl

/-- The tokens that formulas are written with: punctuators, names that are no operators, and
integers. -/
def Token.IsWord (token : Token) : Prop :=
  token.kind = .punctuator ∨ (token.isName = true ∧ token.lexeme ∉ operatorNames) ∨
    ∃ i : IntegerConstant, i.Spells token

namespace Formula

/-- The level of a choice. Operators with two operands have their ranks as the levels below it, and
those with one operand have level zero. -/
def choiceLevel : Nat := 11

/-- The level of a sequence, which is the loosest of all. -/
def sequenceLevel : Nat := 12

/-- The tokens are a writing of the formula for a place where no operator may stand that is looser than
the given level, unless it is in parentheses. Operators with two operands, and commas, bind to the left;
choices bind to the right. -/
inductive Prints : Nat → Formula → List Token → Prop
  | constant {level : Nat} {i : IntegerConstant} {token : Token} (spells : i.Spells token) :
      Prints level (constant i) [token]
  | named {level : Nat} {token : Token} (isName : token.isName = true)
      (ordinary : token.lexeme ∉ operatorNames) :
      Prints level (named token.lexeme ordinary) [token]
  | parentheses {level : Nat} {f : Formula} {tokens : List Token} {opening closing : Token}
      (opens : opening.isOpen = true) (closes : closing.isClose = true)
      (inner : Prints sequenceLevel f tokens) :
      Prints level f (opening :: (tokens ++ [closing]))
  | unary {level : Nat} {op : UnaryOp} {operand : Formula} {token : Token} {tokens : List Token}
      (isSymbol : token.isPunctuator op.symbol = true) (inner : Prints 0 operand tokens) :
      Prints level (unary op operand) (token :: tokens)
  | binary {level : Nat} {op : BinaryOp} {left right : Formula} {token : Token}
      {before after : List Token} (allowed : op.rank ≤ level)
      (isSymbol : token.isPunctuator op.symbol = true) (inLeft : Prints op.rank left before)
      (inRight : Prints (op.rank - 1) right after) :
      Prints level (binary op left right) (before ++ token :: after)
  | choice {level : Nat} {test first second : Formula} {mark colon : Token}
      {before between after : List Token} (allowed : choiceLevel ≤ level)
      (isMark : mark.isPunctuator ['?'] = true) (isColon : colon.isPunctuator [':'] = true)
      (inTest : Prints (choiceLevel - 1) test before)
      (inFirst : Prints sequenceLevel first between)
      (inSecond : Prints choiceLevel second after) :
      Prints level (choice test first second) (before ++ mark :: (between ++ colon :: after))
  | sequence {level : Nat} {first second : Formula} {comma : Token} {before after : List Token}
      (allowed : sequenceLevel ≤ level) (isComma : comma.isPunctuator [','] = true)
      (inFirst : Prints sequenceLevel first before)
      (inSecond : Prints choiceLevel second after) :
      Prints level (sequence first second) (before ++ comma :: after)

/-- What may stand in a place may stand in a place for looser operators. -/
theorem Prints.mono {level looser : Nat} {f : Formula} {tokens : List Token}
    (prints : Prints level f tokens) (allowed : level ≤ looser) : Prints looser f tokens := by
  cases prints with
  | constant spells => exact .constant spells
  | named isName ordinary => exact .named isName ordinary
  | parentheses opens closes inner => exact .parentheses opens closes inner
  | unary isSymbol inner => exact .unary isSymbol inner
  | binary tight isSymbol inLeft inRight =>
      exact .binary (Nat.le_trans tight allowed) isSymbol inLeft inRight
  | choice tight isMark isColon inTest inFirst inSecond =>
      exact .choice (Nat.le_trans tight allowed) isMark isColon inTest inFirst inSecond
  | sequence tight isComma inFirst inSecond =>
      exact .sequence (Nat.le_trans tight allowed) isComma inFirst inSecond

end Formula

/-! ## Words -/

namespace Token

variable {token : Token}

/-- A name among the words of formulas is no operator. -/
theorem IsWord.isNamed_of_mem (word : token.IsWord) {name : Text} (listed : name ∈ operatorNames) :
    token.isNamed name = false := by
  unfold isNamed
  rcases word with kind | ⟨-, ordinary⟩ | ⟨i, kind, -⟩
  · simp [isName, kind]
  · have other : token.lexeme ≠ name := fun same => ordinary (same ▸ listed)
    simp [other]
  · simp [isName, kind]

end Token

end CPreprocessor
