/-
# Conditions that are read alike

The reader of conditions looks at a token to see which of a few punctuators, which
operator or which operand it is, and at nothing else. So two lists of tokens that agree in
this, place by place, are read as trees of one form. A `Correspondence` says which tokens
and which trees are taken for one another, and `Correspondence.read` is the induction along
the reader, once and for all of them. Tokens are compared with regard to whether an operand
is expected where they stand, because a token may be an operator in one place and an
operand in another.
-/
import CPreprocessor.Proofs.Condition.Reading

namespace CPreprocessor

namespace Expression

/-- Whether an operand is expected after a token, where one was expected before it or not. -/
def expectsOperand (expected : Bool) (token : Token) : Bool :=
  if expected then
    (unaryOp? token).isSome || token.isOpen
  else
    (binaryOp? token).isSome || token.isPunctuator ['?'] || token.isPunctuator [':']
      || token.isPunctuator [',']

/-- The leaf for a token after a complete condition. -/
def unexpected (token : Token) : Expression :=
  .invalid ⟨.invalidExpression, token, "unexpected '".toList ++ token.lexeme ++ ['\'']⟩

end Expression

open Expression

/-- A way to compare conditions: tokens, where an operand is expected or is not, and the trees that are
read from them. -/
structure Correspondence where
  Tokens : Bool → Token → Token → Prop
  Trees : Expression → Expression → Prop
  isPunctuator : ∀ {expected token token' symbol}, Tokens expected token token' → symbol ∈ marks →
    token'.isPunctuator symbol = token.isPunctuator symbol
  unaryOp? : ∀ {token token'}, Tokens true token token' →
    Expression.unaryOp? token' = Expression.unaryOp? token
  binaryOp? : ∀ {token token'}, Tokens false token token' →
    Expression.binaryOp? token' = Expression.binaryOp? token
  leaf : ∀ {token token'}, Tokens true token token' → Expression.unaryOp? token = none →
    Trees (Expression.leaf token) (Expression.leaf token')
  unexpected : ∀ {token token'}, Tokens false token token' →
    Trees (Expression.unexpected token) (Expression.unexpected token')
  /-- The grammar is broken at a token. -/
  broken : ∀ {expected token token'} (detail : Text), Tokens expected token token' →
    Trees (.invalid ⟨.invalidExpression, token, detail⟩) (.invalid ⟨.invalidExpression, token', detail⟩)
  /-- The condition ends too early. -/
  ended : ∀ detail : Text,
    Trees (.invalid ⟨.invalidExpression, none, detail⟩) (.invalid ⟨.invalidExpression, none, detail⟩)
  absent : Trees (.value default) (.value default)
  unary : ∀ (op : UnaryOp) {e e'}, Trees e e' → Trees (.unary op e) (.unary op e')
  binary : ∀ (op : BinaryOp) {token token' left left' right right'}, Tokens false token token' →
    Trees left left' → Trees right right' →
    Trees (.binary op token left right) (.binary op token' left' right')
  conditional : ∀ {test test' first first' second second'}, Trees test test' → Trees first first' →
    Trees second second' →
    Trees (.conditional test first second) (.conditional test' first' second')
  comma : ∀ {first first' second second'}, Trees first first' → Trees second second' →
    Trees (.comma first second) (.comma first' second')

namespace Correspondence

/-- The tokens of two lists correspond one by one. -/
inductive Lists (c : Correspondence) : Bool → List Token → List Token → Prop
  | nil {expected : Bool} : Lists c expected [] []
  | cons {expected : Bool} {token token' : Token} {rest rest' : List Token}
      (here : c.Tokens expected token token') (later : Lists c (expectsOperand expected token) rest rest') :
      Lists c expected (token :: rest) (token' :: rest')

/-- Two trees correspond, and so do the tokens after them. -/
structure Results (c : Correspondence) (result result' : Expression × List Token) : Prop where
  trees : c.Trees result.1 result'.1
  rests : c.Lists false result.2 result'.2

variable (c : Correspondence) {token token' : Token} {tokens tokens' : List Token}

theorem isOpen {expected : Bool} (here : c.Tokens expected token token') :
    token'.isOpen = token.isOpen :=
  c.isPunctuator here (by decide)

theorem isClose {expected : Bool} (here : c.Tokens expected token token') :
    token'.isClose = token.isClose :=
  c.isPunctuator here (by decide)

/-- What follows a mark or an operator with two operands is an operand. -/
theorem Lists.after (c : Correspondence) {symbol : Text} {rest rest' : List Token}
    (later : c.Lists (expectsOperand false token) rest rest') (isMark : token.isPunctuator symbol = true)
    (known : symbol ∈ [[','], ['?'], [':']]) : c.Lists true rest rest' := by
  have expects : expectsOperand false token = true := by
    simp only [List.mem_cons, List.not_mem_nil, or_false] at known
    obtain rfl | rfl | rfl := known <;> simp [expectsOperand, isMark]
  rwa [expects] at later

/-- A tree before a place where the grammar is broken. -/
theorem before {e e' : Expression} {place place' : Option Token} {detail : Text} (trees : c.Trees e e')
    (broken : c.Trees (.invalid ⟨.invalidExpression, place, detail⟩)
      (.invalid ⟨.invalidExpression, place', detail⟩)) :
    c.Results (e.before .invalidExpression place detail, [])
      (e'.before .invalidExpression place' detail, []) :=
  ⟨c.comma trees broken, .nil⟩

/-! ## Reading

The levels call one another, so their lemmas do, with the measure of the reader. -/

mutual

theorem results_readComma {tokens tokens' : List Token} (lists : c.Lists true tokens tokens') :
    c.Results (readComma tokens).result (readComma tokens').result := by
  rw [readComma_result, readComma_result]
  have first := results_readConditional lists
  have shorter : (readConditional tokens).result.2.length ≤ tokens.length :=
    (readConditional tokens).shorter
  generalize (readConditional tokens).result = result at first shorter
  generalize (readConditional tokens').result = result' at first
  obtain ⟨tree, rest⟩ := result
  obtain ⟨tree', rest'⟩ := result'
  obtain ⟨trees, rests⟩ := first
  cases rests with
  | nil => exact ⟨trees, .nil⟩
  | @cons _ comma comma' after after' here later =>
    have less : after.length < tokens.length := shorter
    simp only [c.isPunctuator here (show [','] ∈ marks by decide)]
    split
    · rename_i isComma
      have more := results_readComma (later.after c isComma (by decide))
      exact ⟨c.comma trees more.trees, more.rests⟩
    · exact ⟨trees, .cons here later⟩
  termination_by (tokens.length, 2 * loosest + 4)

theorem results_readConditional {tokens tokens' : List Token} (lists : c.Lists true tokens tokens') :
    c.Results (readConditional tokens).result
      (readConditional tokens').result := by
  rw [readConditional_result, readConditional_result]
  have readTest := results_readBinary loosest lists
  have shorter : (readBinary loosest tokens).result.2.length ≤ tokens.length :=
    (readBinary loosest tokens).shorter
  generalize (readBinary loosest tokens).result = result at readTest shorter
  generalize (readBinary loosest tokens').result = result' at readTest
  obtain ⟨test, rest⟩ := result
  obtain ⟨test', rest'⟩ := result'
  obtain ⟨tests, rests⟩ := readTest
  cases rests with
  | nil => exact ⟨tests, .nil⟩
  | @cons _ mark mark' after after' here later =>
    have less : after.length < tokens.length := shorter
    simp only [c.isPunctuator here (show ['?'] ∈ marks by decide)]
    split
    · rename_i isMark
      have readFirst := results_readComma (later.after c isMark (by decide))
      have shorter' : (readComma after).result.2.length ≤ after.length :=
        (readComma after).shorter
      generalize (readComma after).result = result at readFirst shorter'
      generalize (readComma after').result = result' at readFirst
      obtain ⟨first, rest⟩ := result
      obtain ⟨first', rest'⟩ := result'
      obtain ⟨firsts, rests⟩ := readFirst
      cases rests with
      | nil => exact ⟨c.conditional tests (c.comma firsts (c.ended _)) c.absent, .nil⟩
      | @cons _ colon colon' last last' here later =>
        have less' : last.length < tokens.length := Nat.lt_trans shorter' less
        simp only [c.isPunctuator here (show [':'] ∈ marks by decide)]
        split
        · rename_i isColon
          have second := results_readConditional (later.after c isColon (by decide))
          exact ⟨c.conditional tests firsts second.trees, second.rests⟩
        · exact ⟨c.conditional tests (c.comma firsts (c.broken _ here)) c.absent, .nil⟩
    · exact ⟨tests, .cons here later⟩
  termination_by (tokens.length, 2 * loosest + 3)

theorem results_readBinary : ∀ (level : Nat) {tokens tokens' : List Token}, c.Lists true tokens tokens' →
    c.Results (readBinary level tokens).result (readBinary level tokens').result
  | 0, tokens, tokens', lists => by
    rw [readBinary_zero, readBinary_zero]
    exact results_readUnary lists
  | tighter + 1, tokens, tokens', lists => by
    rw [readBinary_succ, readBinary_succ]
    have left := results_readBinary tighter lists
    have shorter : (readBinary tighter tokens).result.2.length ≤ tokens.length :=
      (readBinary tighter tokens).shorter
    exact results_readOperators tighter left.trees left.rests
  termination_by level tokens => (tokens.length, 2 * level + 2)
  decreasing_by
    all_goals simp only [Prod.lex_def, true_and]; omega

theorem results_readOperators (tighter : Nat) {left left' : Expression} {tokens tokens' : List Token}
    (lefts : c.Trees left left') (lists : c.Lists false tokens tokens') :
    c.Results (readOperators tighter left tokens).result
      (readOperators tighter left' tokens').result := by
  match tokens, tokens', lists with
  | _, _, .nil =>
    rw [readOperators_nil, readOperators_nil]
    exact ⟨lefts, .nil⟩
  | token :: after, token' :: after', .cons here later =>
    rw [readOperators_cons, readOperators_cons, c.binaryOp? here]
    cases found : (Expression.binaryOp? token).filter (·.level = tighter + 1) with
    | none => exact ⟨lefts, .cons here later⟩
    | some op =>
      have expects : expectsOperand false token = true := by
        simp [expectsOperand, (Option.filter_eq_some_iff.mp found).1]
      rw [expects] at later
      have right := results_readBinary tighter later
      have shorter : (readBinary tighter after).result.2.length ≤ after.length :=
        (readBinary tighter after).shorter
      exact results_readOperators tighter (c.binary op here lefts right.trees) right.rests
  termination_by (tokens.length, 2 * tighter + 3)

theorem results_readUnary {tokens tokens' : List Token} (lists : c.Lists true tokens tokens') :
    c.Results (readUnary tokens).result (readUnary tokens').result := by
  match tokens, tokens', lists with
  | _, _, .nil =>
    rw [readUnary_nil]
    exact ⟨c.ended _, .nil⟩
  | token :: after, token' :: after', .cons here later =>
    rw [readUnary_cons, readUnary_cons, c.unaryOp? here]
    cases found : Expression.unaryOp? token with
    | none => exact results_readPrimary here found later
    | some op =>
      have expects : expectsOperand true token = true := by simp [expectsOperand, found]
      rw [expects] at later
      have operand := results_readUnary later
      exact ⟨c.unary op operand.trees, operand.rests⟩
  termination_by (tokens.length, 1)

theorem results_readPrimary {token token' : Token} {after after' : List Token}
    (here : c.Tokens true token token') (noOperator : Expression.unaryOp? token = none)
    (later : c.Lists (expectsOperand true token) after after') :
    c.Results (readPrimary token after).result
      (readPrimary token' after').result := by
  rw [readPrimary_result, readPrimary_result, c.isOpen here]
  cases opens : token.isOpen with
  | true =>
    have expects : expectsOperand true token = true := by simp [expectsOperand, opens]
    rw [expects] at later
    have inside := results_readComma later
    generalize (readComma after).result = result at inside
    generalize (readComma after').result = result' at inside
    obtain ⟨inner, rest⟩ := result
    obtain ⟨inner', rest'⟩ := result'
    obtain ⟨trees, rests⟩ := inside
    simp only [if_true]
    cases rests with
    | nil => exact c.before trees (c.broken _ here)
    | @cons _ close close' rest rest' closing later =>
      simp only [c.isClose closing]
      cases closes : close.isClose with
      | true =>
        have complete : expectsOperand false close = false := by
          have isClose : close.isPunctuator [')'] = true := closes
          simp only [expectsOperand, binaryOp?_of_mark isClose (by decide),
            Token.isPunctuator_of_isPunctuator isClose]
          rfl
        rw [complete] at later
        exact ⟨trees, later⟩
      | false => exact c.before trees (c.broken _ here)
  | false =>
    have complete : expectsOperand true token = false := by simp [expectsOperand, noOperator, opens]
    rw [complete] at later
    exact ⟨c.leaf here noOperator, later⟩
  termination_by (after.length + 1, 0)

end

/-- Corresponding conditions have corresponding trees. -/
theorem read (lists : c.Lists true tokens tokens') :
    c.Trees (Expression.read tokens) (Expression.read tokens') := by
  rw [read_eq, read_eq]
  have whole := c.results_readComma lists
  generalize (readComma tokens).result = result at whole
  generalize (readComma tokens').result = result' at whole
  obtain ⟨tree, rest⟩ := result
  obtain ⟨tree', rest'⟩ := result'
  obtain ⟨trees, rests⟩ := whole
  cases rests with
  | nil => exact trees
  | cons here later => exact c.comma trees (c.unexpected here)

end Correspondence

end CPreprocessor
