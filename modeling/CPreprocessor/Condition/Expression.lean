/-
# Constant expressions

The tokens of a condition form an expression tree. Reading never fails: where the
tokens break the grammar, the tree has an invalid leaf, which stands after
everything that was read before it. Evaluation goes from left to right, so the
first failure in the order of the tokens is the one that is reported. A division
by zero fails only where its value counts; a part that breaks the grammar always
fails.
-/
import CPreprocessor.Condition.Literal

namespace CPreprocessor

/-- The tree of a condition. -/
inductive Expression where
  | value (v : Value)
  /-- A place where the condition has no value. -/
  | invalid (failure : Failure)
  | unary (op : UnaryOp) (operand : Expression)
  /-- An operator with the token it is written with. -/
  | binary (op : BinaryOp) (token : Token) (left right : Expression)
  | conditional (test first second : Expression)
  | comma (first second : Expression)

namespace Expression

/-- The leaf for something that has a value or fails. -/
def ofExcept : Except Failure Value → Expression
  | .ok v => .value v
  | .error failure => .invalid failure

/-- A tree that fails after another one has been evaluated. -/
def before (e : Expression) (code : Code) (token : Option Token) (detail : Text) : Expression :=
  .comma e (.invalid ⟨code, token, detail⟩)

/-! ## Evaluation -/

/-- The value of a tree. In a part that is `skipped`, a division by zero counts as zero. -/
def eval (skipped : Bool) : Expression → Except Failure Value
  | value v => .ok v
  | invalid failure => .error failure
  | unary op operand => do
    let v ← operand.eval skipped
    return op.apply v
  | binary op token left right => do
    let a ← left.eval skipped
    let b ← right.eval (skipped || op.skipsRight a)
    match op.value? a b with
    | some v => return v
    | none =>
      if skipped then
        return ⟨0, a.unsigned || b.unsigned⟩
      else
        throw ⟨.divisionByZero, token, []⟩
  | conditional test first second => do
    let c ← test.eval skipped
    let a ← first.eval (skipped || !c.isTrue)
    let b ← second.eval (skipped || c.isTrue)
    return ⟨if c.isTrue then a.bits else b.bits, a.unsigned || b.unsigned⟩
  | comma first second => do
    let _ ← first.eval skipped
    second.eval skipped

/-! ## Reading -/

/-- The token is an operator, in its usual spelling or as a name. -/
def isOperator (token : Token) (symbol name : Text) : Bool :=
  token.isPunctuator symbol || token.isNamed name

/-- The operator with one operand that a token is. -/
def unaryOp? (token : Token) : Option UnaryOp :=
  if token.isPunctuator ['+'] then some .plus
  else if token.isPunctuator ['-'] then some .minus
  else if isOperator token ['!'] "not".toList then some .logicalNot
  else if isOperator token ['~'] "compl".toList then some .bitNot
  else none

/-- The operators that are punctuators, and the operators that may be written as names. -/
def binaryOps : List (BinaryOp × Text × Option Text) :=
  [(.mul, "*".toList, none), (.div, "/".toList, none), (.mod, "%".toList, none),
    (.add, "+".toList, none), (.sub, "-".toList, none),
    (.shiftLeft, "<<".toList, none), (.shiftRight, ">>".toList, none),
    (.less, "<".toList, none), (.greater, ">".toList, none),
    (.lessEqual, "<=".toList, none), (.greaterEqual, ">=".toList, none),
    (.equal, "==".toList, none), (.notEqual, "!=".toList, some "not_eq".toList),
    (.bitAnd, "&".toList, some "bitand".toList), (.bitXor, "^".toList, some "xor".toList),
    (.bitOr, "|".toList, some "bitor".toList), (.logicalAnd, "&&".toList, some "and".toList),
    (.logicalOr, "||".toList, some "or".toList)]

/-- The operator with two operands that a token is. -/
def binaryOp? (token : Token) : Option BinaryOp :=
  binaryOps.findSome? fun (op, symbol, name) =>
    if token.isPunctuator symbol || name.any token.isNamed then some op else none

/-- A tree read from the front of some tokens, and the tokens after it. -/
structure Parsed (tokens : List Token) where
  tree : Expression
  rest : List Token
  shorter : rest.length ≤ tokens.length

namespace Parsed

/-- The result for a longer list of tokens. -/
def lengthen {inner outer : List Token} (p : Parsed inner) (more : inner.length ≤ outer.length) :
    Parsed outer :=
  ⟨p.tree, p.rest, Nat.le_trans p.shorter more⟩

/-- The result with a larger tree. -/
def map {tokens : List Token} (p : Parsed tokens) (f : Expression → Expression) : Parsed tokens :=
  ⟨f p.tree, p.rest, p.shorter⟩

/-- A failure ends the reading: nothing is left after it. -/
def fail {tokens : List Token} (tree : Expression) : Parsed tokens :=
  ⟨tree, [], Nat.zero_le _⟩

end Parsed

/-- The leaf that a token is. Names that are left over count as zero, but `true` is one. -/
def leaf (token : Token) : Expression :=
  match token.kind with
  | .number => ofExcept (IntegerLiteral.value token)
  | .character => ofExcept (CharacterLiteral.value token)
  | .keyword | .identifier => .value (.ofBool (token.lexeme == "true".toList))
  | .string =>
    .invalid ⟨.invalidExpression, token, "string literal in preprocessor expression".toList⟩
  | _ =>
    .invalid ⟨.invalidExpression, token, "unexpected '".toList ++ token.lexeme ++ ['\'']⟩

/-- The detail of a choice without its second part. -/
def colonExpected : Text :=
  "expected ':' in conditional expression".toList

/-- The detail of an open parenthesis. -/
def closeMissing : Text :=
  "missing ')' in expression".toList

/-- The loosest level of operators with two operands. -/
def loosest : Nat := 10

mutual

/-- Expressions separated by commas. -/
def readComma (tokens : List Token) : Parsed tokens :=
  match readConditional tokens with
  | ⟨tree, [], shorter⟩ => ⟨tree, [], shorter⟩
  | ⟨tree, token :: after, shorter⟩ =>
    if token.isPunctuator [','] then
      ((readComma after).lengthen (Nat.le_of_lt shorter)).map (.comma tree)
    else
      ⟨tree, token :: after, shorter⟩
  termination_by (tokens.length, 2 * loosest + 4)

/-- An operator expression, or a choice between two expressions. -/
def readConditional (tokens : List Token) : Parsed tokens :=
  match readBinary loosest tokens with
  | ⟨test, [], shorter⟩ => ⟨test, [], shorter⟩
  | ⟨test, token :: after, shorter⟩ =>
    if token.isPunctuator ['?'] then
      match readComma after with
      | ⟨first, [], _⟩ => .fail (.conditional test (first.before .invalidExpression none colonExpected)
          (.value default))
      | ⟨first, colon :: after', shorter'⟩ =>
        if colon.isPunctuator [':'] then
          have second : after'.length < tokens.length :=
            Nat.lt_trans shorter' shorter
          ((readConditional after').lengthen (Nat.le_of_lt second)).map (.conditional test first)
        else
          .fail (.conditional test (first.before .invalidExpression colon colonExpected)
            (.value default))
    else
      ⟨test, token :: after, shorter⟩
  termination_by (tokens.length, 2 * loosest + 3)

/-- Operands joined by operators of some level and tighter ones. Operators of one level bind to the
left. -/
def readBinary (level : Nat) (tokens : List Token) : Parsed tokens :=
  match level with
  | 0 => readUnary tokens
  | tighter + 1 =>
    match readBinary tighter tokens with
    | ⟨tree, rest, shorter⟩ => (readOperators tighter tree rest).lengthen shorter
  termination_by (tokens.length, 2 * level + 2)
  decreasing_by
    all_goals simp only [Prod.lex_def, true_and]; omega

/-- What follows an operand on a level: operators of the level with their right operands. -/
def readOperators (tighter : Nat) (left : Expression) (tokens : List Token) : Parsed tokens :=
  match tokens with
  | [] => ⟨left, [], Nat.le_refl _⟩
  | token :: after =>
    match (binaryOp? token).filter (·.level = tighter + 1) with
    | some op =>
      match readBinary tighter after with
      | ⟨right, rest, shorter⟩ =>
        (readOperators tighter (.binary op token left right) rest).lengthen
          (Nat.le_succ_of_le shorter)
    | none => ⟨left, token :: after, Nat.le_refl _⟩
  termination_by (tokens.length, 2 * tighter + 3)

/-- An operand with the operators before it. -/
def readUnary (tokens : List Token) : Parsed tokens :=
  match tokens with
  | [] => .fail (.invalid ⟨.invalidExpression, none, "expected an operand".toList⟩)
  | token :: after =>
    match unaryOp? token with
    | some op => ((readUnary after).lengthen (Nat.le_succ _)).map (.unary op)
    | none => readPrimary token after
  termination_by (tokens.length, 1)

/-- A literal, a name, or an expression in parentheses, which starts with the given token. -/
def readPrimary (token : Token) (after : List Token) : Parsed (token :: after) :=
  if token.isOpen then
    match readComma after with
    | ⟨inner, [], _⟩ => .fail (inner.before .invalidExpression token closeMissing)
    | ⟨inner, close :: rest, shorter⟩ =>
      if close.isClose then
        ⟨inner, rest, Nat.le_succ_of_le (Nat.le_of_lt shorter)⟩
      else
        .fail (inner.before .invalidExpression token closeMissing)
  else
    ⟨leaf token, after, Nat.le_succ _⟩
  termination_by (after.length + 1, 0)

end

/-- The tree of all the tokens. -/
def read (tokens : List Token) : Expression :=
  let whole := readComma tokens
  match whole.rest with
  | [] => whole.tree
  | token :: _ =>
    whole.tree.before .invalidExpression token ("unexpected '".toList ++ token.lexeme ++ ['\''])

end Expression

/-- The value of the tokens of a condition. A condition without a value is reported, at the place
where it fails or at its directive, and has none. -/
def evaluateCondition (tokens : List Token) (directive : Token) (journal : Journal) :
    Option Value × Journal :=
  match tokens.filter (!·.isEnd) with
  | [] => (none, journal.report directive .emptyConstExpr [])
  | first :: more =>
    match (Expression.read (first :: more)).eval false with
    | .ok v => (some v, journal)
    | .error failure =>
      let place := failure.token.getD ((first :: more).getLast (by simp))
      (none, journal.report place failure.code failure.detail)

end CPreprocessor
