/-
# Conditions and places

The tree of a condition holds tokens only to say where it fails. So the reader builds
the same tree from tokens and from what is seen of them, up to those tokens, and the
tree has the same value or fails for the same reason.
-/
import CPreprocessor.Proofs.Condition.Correspondence
import CPreprocessor.Proofs.Places.Expansion

namespace CPreprocessor

/-- The failure as it is seen. -/
def Failure.seen (v : View) (failure : Failure) : Failure :=
  { failure with token := failure.token.map (Token.seen v) }

namespace Expression

/-- The tree as it is seen. -/
def seen (v : View) : Expression → Expression
  | value x => .value x
  | invalid failure => .invalid (failure.seen v)
  | unary op operand => .unary op (operand.seen v)
  | binary op token left right => .binary op (token.seen v) (left.seen v) (right.seen v)
  | conditional test first second => .conditional (test.seen v) (first.seen v) (second.seen v)
  | comma first second => .comma (first.seen v) (second.seen v)

variable (v : View)

/-- A tree has the same value under every view, or fails in the same way. -/
theorem eval_seen (skipped : Bool) (e : Expression) :
    (e.seen v).eval skipped = (e.eval skipped).mapError (Failure.seen v) := by
  induction e generalizing skipped with
  | value x => rfl
  | invalid failure => rfl
  | unary op operand ih =>
    simp only [seen, eval, ih]
    cases operand.eval skipped <;> rfl
  | binary op token left right ihLeft ihRight =>
    simp only [seen, eval, ihLeft, ihRight]
    cases left.eval skipped with
    | error failure => rfl
    | ok a =>
      simp only [Except.mapError, bind, Except.bind]
      cases right.eval (skipped || op.skipsRight a) with
      | error failure => rfl
      | ok b =>
        simp only []
        cases op.value? a b with
        | some x => rfl
        | none => cases skipped <;> rfl
  | conditional test first second ihTest ihFirst ihSecond =>
    simp only [seen, eval, ihTest, ihFirst, ihSecond]
    cases test.eval skipped with
    | error failure => rfl
    | ok c =>
      simp only [Except.mapError, bind, Except.bind]
      cases first.eval (skipped || !c.isTrue) with
      | error failure => rfl
      | ok a => cases second.eval (skipped || c.isTrue) <;> rfl
  | comma first second ihFirst ihSecond =>
    simp only [seen, eval, ihFirst, ihSecond]
    cases first.eval skipped <;> rfl

theorem leaf_seen (token : Token) : leaf (token.seen v) = (leaf token).seen v := by
  have integer : IntegerLiteral.value (token.seen v)
      = (IntegerLiteral.value token).mapError (Failure.seen v) := by
    simp only [IntegerLiteral.value, Token.lexeme_seen]
    repeat' split
    all_goals rfl
  have character : CharacterLiteral.value (token.seen v)
      = (CharacterLiteral.value token).mapError (Failure.seen v) := by
    simp only [CharacterLiteral.value, Token.lexeme_seen, Token.error_seen]
    cases token.error <;> rfl
  have spread (result : Except Failure Value) :
      ofExcept (result.mapError (Failure.seen v)) = (ofExcept result).seen v := by
    cases result <;> rfl
  simp only [leaf, Token.kind_seen, integer, character, spread]
  cases token.kind <;> rfl

/-- Tokens and trees are taken for what is seen of them. -/
def viewed : Correspondence where
  Tokens _ token token' := token' = token.seen v
  Trees e e' := e' = e.seen v
  isPunctuator := by rintro _ token _ symbol rfl _; rfl
  unaryOp? := by rintro token _ rfl; rfl
  binaryOp? := by rintro token _ rfl; rfl
  leaf := by rintro token _ rfl _; exact leaf_seen v token
  unexpected := by rintro token _ rfl; rfl
  broken := by rintro _ token _ detail rfl; rfl
  ended _ := rfl
  absent := rfl
  unary := by rintro op e _ rfl; rfl
  binary := by rintro op token _ left _ right _ rfl rfl rfl; rfl
  conditional := by rintro test _ first _ second _ rfl rfl rfl; rfl
  comma := by rintro first _ second _ rfl rfl; rfl

theorem lists_viewed (expected : Bool) (tokens : List Token) :
    (viewed v).Lists expected tokens (tokens.map (Token.seen v)) := by
  induction tokens generalizing expected with
  | nil => exact .nil
  | cons token rest ih => exact .cons rfl (ih _)

theorem read_seen (tokens : List Token) :
    read (tokens.map (Token.seen v)) = (read tokens).seen v :=
  (viewed v).read (lists_viewed v true tokens)

end Expression

/-- A condition with tokens has the value of its tree. -/
theorem evaluateCondition_of_cons {tokens more : List Token} {first : Token}
    (words : tokens.filter (!·.isEnd) = first :: more) (directive : Token) (journal : Journal) :
    evaluateCondition tokens directive journal =
      match (Expression.read (first :: more)).eval false with
      | .ok x => (some x, journal)
      | .error failure =>
        let place := failure.token.getD ((first :: more).getLastD directive)
        (none, journal.report place failure.code failure.detail) := by
  unfold evaluateCondition
  split
  · rename_i empty
    rw [empty] at words
    cases words
  · rename_i first' more' same
    rw [same] at words
    cases words
    have last : (first :: more).getLast (List.cons_ne_nil first more)
        = (first :: more).getLastD directive := by
      rw [List.getLastD_eq_getLast?, List.getLast?_eq_some_getLast (List.cons_ne_nil first more),
        Option.getD_some]
    cases (Expression.read (first :: more)).eval false with
    | ok value => rfl
    | error failure => simp only [last]

/-- A condition has the same value under every view. -/
theorem evaluateCondition_seen (v : View) (tokens : List Token) {directive directive' : Token}
    (looks : v.reports = true → directive.seen v.marks = directive'.seen v.marks)
    {s s' : Expansion.State} (same : Expansion.State.Alike v s s') :
    (evaluateCondition (tokens.map (Token.seen v)) directive' s'.journal).1
        = (evaluateCondition tokens directive s.journal).1
      ∧ Expansion.State.Alike v
          { s with journal := (evaluateCondition tokens directive s.journal).2 }
          { s' with
            journal := (evaluateCondition (tokens.map (Token.seen v)) directive' s'.journal).2 } := by
  have kept : (tokens.map (Token.seen v)).filter (!·.isEnd)
      = (tokens.filter (!·.isEnd)).map (Token.seen v) := by
    rw [List.filter_map]
    rfl
  cases words : tokens.filter (!·.isEnd) with
  | nil =>
    rw [words] at kept
    simp only [evaluateCondition, words, kept]
    exact ⟨rfl, same.report_marks (fun compared => ⟨looks compared, rfl⟩) _⟩
  | cons first more =>
    rw [words, List.map_cons] at kept
    rw [evaluateCondition_of_cons words, evaluateCondition_of_cons kept, ← List.map_cons,
      Expression.read_seen, Expression.eval_seen]
    cases (Expression.read (first :: more)).eval false with
    | ok x => exact ⟨rfl, same⟩
    | error failure =>
      have place : (failure.seen v).token.getD
            (((first :: more).map (Token.seen v)).getLastD directive')
          = (failure.token.getD ((first :: more).getLastD directive)).seen v := by
        cases known : failure.token with
        | none =>
          simp only [Failure.seen, known, Option.map_none, Option.getD_none,
            List.getLastD_eq_getLast?, List.getLast?_map,
            List.getLast?_eq_some_getLast (List.cons_ne_nil first more), Option.map_some,
            Option.getD_some]
        | some token => simp only [Failure.seen, known, Option.map_some, Option.getD_some]
      refine ⟨rfl, ?_⟩
      have reported := same.report (failure.token.getD ((first :: more).getLastD directive))
        failure.code failure.detail
      rw [← place] at reported
      exact reported

end CPreprocessor
