/-
# Reading conditions

The reader of conditions descends from level to level. This module gives each of its
levels as an equation between results, without the proofs that results carry, and
relates the tokens that the reader takes for operators and operands to those that
formulas are written with.
-/
import CPreprocessor.Condition.Expression
import CPreprocessor.Proofs.Condition.Printing

namespace CPreprocessor

namespace Expression

open Token

theorem unaryOp?_of_symbol {token : Token} {op : UnaryOp}
    (isSymbol : token.isPunctuator op.symbol = true) : unaryOp? token = some op := by
  simp only [unaryOp?, isOperator, isPunctuator_of_isPunctuator isSymbol,
    isNamed_of_isPunctuator isSymbol]
  cases op <;> rfl

theorem symbol_of_unaryOp? {token : Token} {op : UnaryOp} (word : token.IsWord)
    (found : unaryOp? token = some op) : token.isPunctuator op.symbol = true := by
  have noNot : token.isNamed "not".toList = false := word.isNamed_of_mem (by decide)
  have noCompl : token.isNamed "compl".toList = false := word.isNamed_of_mem (by decide)
  simp only [unaryOp?, isOperator, noNot, noCompl, Bool.or_false] at found
  repeat' split at found
  all_goals cases found
  all_goals assumption

theorem binaryOp?_of_symbol {token : Token} {op : BinaryOp}
    (isSymbol : token.isPunctuator op.symbol = true) : binaryOp? token = some op := by
  have noName (name : Option Text) : name.any token.isNamed = false := by
    cases name with
    | none => rfl
    | some name => exact isNamed_of_isPunctuator isSymbol name
  simp only [binaryOp?, isPunctuator_of_isPunctuator isSymbol, noName, Bool.or_false]
  cases op <;> decide

theorem symbol_of_binaryOp? {token : Token} {op : BinaryOp} (word : token.IsWord)
    (found : binaryOp? token = some op) : token.isPunctuator op.symbol = true := by
  obtain ⟨⟨listed, symbol, name⟩, present, picked⟩ := List.exists_of_findSome?_eq_some found
  have noName : name.any token.isNamed = false := by
    have operators : ∀ entry ∈ binaryOps, ∀ name ∈ entry.2.2, name ∈ operatorNames := by decide
    cases name with
    | none => rfl
    | some name => exact word.isNamed_of_mem (operators _ present name rfl)
  have symbols : ∀ entry ∈ binaryOps, entry.2.1 = entry.1.symbol := by decide
  have same : symbol = listed.symbol := symbols _ present
  simp only [noName, Bool.or_false, Option.ite_none_right_eq_some, Option.some.injEq] at picked
  rw [← picked.2, ← same]
  exact picked.1

/-- The punctuators that the reader asks for besides operators. -/
def marks : List Text :=
  [[','], ['?'], [':'], ['('], [')']]

theorem binaryOp?_of_mark {token : Token} {symbol : Text}
    (isSymbol : token.isPunctuator symbol = true) (isMark : symbol ∈ marks) :
    binaryOp? token = none := by
  have noName (name : Option Text) : name.any token.isNamed = false := by
    cases name with
    | none => rfl
    | some name => exact isNamed_of_isPunctuator isSymbol name
  simp only [binaryOp?, isPunctuator_of_isPunctuator isSymbol, noName, Bool.or_false]
  simp only [marks, List.mem_cons, List.not_mem_nil, or_false] at isMark
  obtain rfl | rfl | rfl | rfl | rfl := isMark <;> decide

/-- A word that is neither an integer nor a name is no operand. -/
theorem leaf_of_isPunctuator {token : Token} (kind : token.kind = .punctuator) :
    ∃ failure, leaf token = .invalid failure := by
  simp only [leaf, kind]
  exact ⟨_, rfl⟩

/-! ## Levels of the reader -/

/-- The tree that was read and what is left. -/
def Parsed.result {tokens : List Token} (p : Parsed tokens) : Expression × List Token :=
  (p.tree, p.rest)

/-- A sequence is a choice, and after a comma another sequence. -/
theorem readComma_result (tokens : List Token) :
    (readComma tokens).result =
      match (readConditional tokens).result with
      | (tree, []) => (tree, [])
      | (tree, token :: after) =>
        if token.isPunctuator [','] then
          (.comma tree (readComma after).result.1, (readComma after).result.2)
        else
          (tree, token :: after) := by
  rw [readComma]
  generalize readConditional tokens = p
  obtain ⟨tree, rest, shorter⟩ := p
  cases rest with
  | nil => rfl
  | cons token after =>
      simp only [Parsed.result]
      split <;> rfl

theorem readConditional_result (tokens : List Token) :
    (readConditional tokens).result =
      match (readBinary loosest tokens).result with
      | (test, []) => (test, [])
      | (test, mark :: after) =>
        if mark.isPunctuator ['?'] then
          match (readComma after).result with
          | (first, []) =>
            (.conditional test (first.before .invalidExpression none colonExpected)
              (.value default), [])
          | (first, colon :: after) =>
            if colon.isPunctuator [':'] then
              (.conditional test first (readConditional after).result.1,
                (readConditional after).result.2)
            else
              (.conditional test (first.before .invalidExpression colon colonExpected)
                (.value default), [])
        else
          (test, mark :: after) := by
  rw [readConditional]
  generalize readBinary loosest tokens = p
  obtain ⟨test, rest, shorter⟩ := p
  cases rest with
  | nil => rfl
  | cons mark after =>
      simp only [Parsed.result]
      split
      · generalize readComma after = q
        obtain ⟨first, rest, shorter⟩ := q
        cases rest with
        | nil => rfl
        | cons colon after =>
            dsimp only
            split <;> rfl
      · rfl

theorem readBinary_zero (tokens : List Token) :
    (readBinary 0 tokens).result = (readUnary tokens).result := by
  rw [readBinary]

/-- A level is an operand of the next tighter level, and what the operators of the level add to it. -/
theorem readBinary_succ (tighter : Nat) (tokens : List Token) :
    (readBinary (tighter + 1) tokens).result =
      (readOperators tighter (readBinary tighter tokens).result.1
        (readBinary tighter tokens).result.2).result := by
  rw [readBinary]
  rfl

theorem readOperators_nil (tighter : Nat) (left : Expression) :
    (readOperators tighter left []).result = (left, []) := by
  rw [readOperators]
  rfl

theorem readOperators_cons (tighter : Nat) (left : Expression) (token : Token)
    (after : List Token) :
    (readOperators tighter left (token :: after)).result =
      match (binaryOp? token).filter (·.level = tighter + 1) with
      | some op =>
        (readOperators tighter (.binary op token left (readBinary tighter after).result.1)
          (readBinary tighter after).result.2).result
      | none => (left, token :: after) := by
  rw [readOperators]
  generalize (binaryOp? token).filter (·.level = tighter + 1) = found
  cases found <;> rfl

theorem readUnary_nil :
    (readUnary []).result =
      (.invalid ⟨.invalidExpression, none, "expected an operand".toList⟩, []) := by
  rw [readUnary]
  rfl

theorem readUnary_cons (token : Token) (after : List Token) :
    (readUnary (token :: after)).result =
      match unaryOp? token with
      | some op => (.unary op (readUnary after).result.1, (readUnary after).result.2)
      | none => (readPrimary token after).result := by
  rw [readUnary]
  generalize unaryOp? token = found
  cases found <;> rfl

theorem readPrimary_result (token : Token) (after : List Token) :
    (readPrimary token after).result =
      if token.isOpen then
        match (readComma after).result with
        | (inner, []) => (inner.before .invalidExpression token closeMissing, [])
        | (inner, closing :: rest) =>
          if closing.isClose then (inner, rest)
          else (inner.before .invalidExpression token closeMissing, [])
      else
        (leaf token, after) := by
  rw [readPrimary]
  split
  · generalize readComma after = p
    obtain ⟨inner, rest, shorter⟩ := p
    cases rest with
    | nil => rfl
    | cons closing rest =>
        simp only [Parsed.result]
        split <;> rfl
  · rfl

theorem read_eq (tokens : List Token) :
    read tokens =
      match (readComma tokens).result with
      | (tree, []) => tree
      | (tree, token :: _) =>
        tree.before .invalidExpression token ("unexpected '".toList ++ token.lexeme ++ ['\'']) := by
  rw [read]
  generalize readComma tokens = p
  obtain ⟨tree, rest, shorter⟩ := p
  cases rest <;> rfl

/-- Where an operand takes all the tokens, it is what is read from them. -/
theorem read_of_readUnary {tokens : List Token} {e : Expression}
    (whole : (readUnary tokens).result = (e, [])) : read tokens = e := by
  have binary (level : Nat) : (readBinary level tokens).result = (e, []) := by
    induction level with
    | zero => rw [readBinary_zero, whole]
    | succ tighter ih => rw [readBinary_succ, ih, readOperators_nil]
  rw [read_eq, readComma_result, readConditional_result, binary]

/-- A single operand is read as its leaf. -/
theorem read_singleton {token : Token} (noOperator : unaryOp? token = none)
    (notOpen : token.isOpen = false) : read [token] = leaf token := by
  refine read_of_readUnary ?_
  rw [readUnary_cons, noOperator, readPrimary_result, notOpen]
  rfl

end Expression

/-- A condition of a single operand has its value or fails as it does. -/
theorem evaluateCondition_singleton {token : Token} (noOperator : Expression.unaryOp? token = none)
    (notOpen : token.isOpen = false) (inside : token.isEnd = false) (directive : Token)
    (journal : Journal) :
    evaluateCondition [token] directive journal =
      match (Expression.leaf token).eval false with
      | .ok v => (some v, journal)
      | .error failure =>
        (none, journal.report (failure.token.getD token) failure.code failure.detail) := by
  have kept : [token].filter (!·.isEnd) = [token] := by simp [inside]
  unfold evaluateCondition
  split
  · rename_i empty
    rw [kept] at empty
    cases empty
  · rename_i first more same
    rw [kept] at same
    cases same
    rw [Expression.read_singleton noOperator notOpen]
    rfl

end CPreprocessor
