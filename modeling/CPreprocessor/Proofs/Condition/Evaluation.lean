/-
# Evaluation computes the meaning

A tree means a formula if its evaluation has the value of the formula where that
counts, fails at an operator of the formula where computing it divides by zero, and
goes through with the type of the formula where it is skipped. Each kind of formula
is meant by the tree of the same kind whose parts mean its parts.
-/
import CPreprocessor.Condition.Expression
import CPreprocessor.Proofs.Condition.Arithmetic
import CPreprocessor.Proofs.Condition.Printing

namespace CPreprocessor

/-- The token is an operator that divides. -/
def Token.IsDivision (token : Token) : Prop :=
  token.isPunctuator ['/'] = true ∨ token.isPunctuator ['%'] = true

/-- A value of the type of a formula, with the value of the formula, or a failure at one of the
tokens because of a division by zero. -/
def Formula.Outcome (f : Formula) (tokens : List Token) (outcome : Except Failure Value) : Prop :=
  match f.value with
  | some n => ∃ v, outcome = .ok v ∧ v.toInt = n ∧ v.unsigned = f.unsigned
  | none => ∃ token ∈ tokens, token.IsDivision ∧ outcome = .error ⟨.divisionByZero, token, []⟩

namespace Formula

variable {f g : Formula} {tokens more : List Token} {outcome outcome' : Except Failure Value}

theorem outcome_of_some {n : Int} (value : f.value = some n) :
    f.Outcome tokens outcome ↔
      ∃ v, outcome = .ok v ∧ v.toInt = n ∧ v.unsigned = f.unsigned := by
  rw [Outcome, value]

theorem outcome_of_none (value : f.value = none) :
    f.Outcome tokens outcome ↔
      ∃ token ∈ tokens, token.IsDivision ∧ outcome = .error ⟨.divisionByZero, token, []⟩ := by
  rw [Outcome, value]

/-- A formula has the outcome of a formula with the same value and type. -/
theorem Outcome.congr (counted : f.Outcome tokens outcome) (present : tokens ⊆ more)
    (value : g.value = f.value) (type : g.unsigned = f.unsigned) : g.Outcome more outcome := by
  cases known : f.value with
  | some n =>
      rw [outcome_of_some (value.trans known), type]
      exact (outcome_of_some known).mp counted
  | none =>
      obtain ⟨token, member, failure⟩ := (outcome_of_none known).mp counted
      exact (outcome_of_none (value.trans known)).mpr ⟨token, present member, failure⟩

/-- A formula fails with a part that has to be computed for it. -/
theorem Outcome.fail (counted : f.Outcome tokens outcome) (present : tokens ⊆ more)
    (valueless : f.value = none) (whole : g.value = none)
    (fails : ∀ failure, outcome = .error failure → outcome' = .error failure) :
    g.Outcome more outcome' := by
  obtain ⟨token, member, divides, failed⟩ := (outcome_of_none valueless).mp counted
  exact (outcome_of_none whole).mpr ⟨token, present member, divides, fails _ failed⟩

end Formula

namespace BinaryOp

/-- What decides an operator is its value. -/
theorem meaning_of_decided? {op : BinaryOp} {a n : Int} (decided : op.decided? a = some n)
    (u v : Bool) (b : Int) : op.meaning u v a b = some n := by
  cases op with
  | logicalAnd =>
      simp only [decided?, Option.ite_none_right_eq_some, Option.some.injEq] at decided
      simp [meaning, truth, decided.1, ← decided.2]
  | logicalOr =>
      simp only [decided?, Option.ite_none_left_eq_some, Option.some.injEq] at decided
      simp [meaning, truth, decided.1, ← decided.2]
  | _ => cases decided

/-- The right operand is skipped where the left one decides. -/
theorem skipsRight_eq (op : BinaryOp) (a : Value) :
    op.skipsRight a = (op.decided? a.toInt).isSome := by
  cases op with
  | logicalAnd | logicalOr =>
      cases isTrue : a.isTrue with
      | false =>
          have zero : a.toInt = 0 := by
            by_contra nonzero
            simp [Value.isTrue_iff.mpr nonzero] at isTrue
          simp [skipsRight, decided?, isTrue, zero]
      | true =>
          have nonzero : a.toInt ≠ 0 := Value.isTrue_iff.mp isTrue
          simp [skipsRight, decided?, isTrue, nonzero]
  | _ => rfl

/-- Only division has no value. -/
theorem type_of_value?_eq_none {op : BinaryOp} {a b : Value} (failed : op.value? a b = none)
    (u v : Bool) : op.type u v = (u || v) := by
  have meaningless := map_toInt_value? a b op
  rw [failed, Option.map_none] at meaningless
  rcases (meaning_eq_none.mp meaningless.symm).1 with rfl | rfl <;> rfl

/-- The token of an operator without a value is an operator that divides. -/
theorem isDivision_of_meaning_eq_none {op : BinaryOp} {token : Token} {u v : Bool} {a b : Int}
    (isSymbol : token.isPunctuator op.symbol = true) (failed : op.meaning u v a b = none) :
    token.IsDivision := by
  rcases (meaning_eq_none.mp failed).1 with rfl | rfl
  · exact .inl isSymbol
  · exact .inr isSymbol

end BinaryOp

namespace Expression

/-! ## Evaluation, one operator at a time -/

theorem eval_binary {op : BinaryOp} {token : Token} {left right : Expression} {skipped : Bool}
    {a b : Value} (evaluatedLeft : left.eval skipped = .ok a)
    (evaluatedRight : right.eval (skipped || op.skipsRight a) = .ok b) :
    (binary op token left right).eval skipped =
      match op.value? a b with
      | some v => .ok v
      | none =>
        if skipped then .ok ⟨0, a.unsigned || b.unsigned⟩
        else .error ⟨.divisionByZero, token, []⟩ := by
  simp only [eval, evaluatedLeft, evaluatedRight, bind, Except.bind]
  cases op.value? a b with
  | some v => rfl
  | none => cases skipped <;> rfl

theorem eval_conditional {test first second : Expression} {skipped : Bool} {c a b : Value}
    (evaluatedTest : test.eval skipped = .ok c)
    (evaluatedFirst : first.eval (skipped || !c.isTrue) = .ok a)
    (evaluatedSecond : second.eval (skipped || c.isTrue) = .ok b) :
    (conditional test first second).eval skipped =
      .ok ⟨if c.isTrue then a.bits else b.bits, a.unsigned || b.unsigned⟩ := by
  simp only [eval, evaluatedTest, evaluatedFirst, evaluatedSecond, bind, Except.bind]
  rfl

theorem eval_comma {first second : Expression} {skipped : Bool} {a : Value}
    (evaluatedFirst : first.eval skipped = .ok a) :
    (comma first second).eval skipped = second.eval skipped := by
  simp only [eval, evaluatedFirst, bind, Except.bind]

theorem eval_comma_congr {first second second' : Expression} {skipped : Bool}
    (same : second.eval skipped = second'.eval skipped) :
    (comma first second).eval skipped = (comma first second').eval skipped := by
  simp only [eval, same]

theorem eval_comma_comma (first second third : Expression) (skipped : Bool) :
    (comma first (comma second third)).eval skipped =
      (comma (comma first second) third).eval skipped := by
  simp only [eval, bind, Except.bind]
  cases first.eval skipped with
  | error failure => rfl
  | ok a => rfl

theorem subset_append_cons {before after : List Token} {token : Token} :
    after ⊆ before ++ token :: after :=
  fun _ present => List.mem_append_right _ (List.mem_cons_of_mem _ present)

/-- Evaluation of the tree computes the formula that is written with the tokens. -/
structure Means (e : Expression) (f : Formula) (tokens : List Token) : Prop where
  skipped : ∃ v, e.eval true = .ok v ∧ v.unsigned = f.unsigned
  counted : f.Outcome tokens (e.eval false)

namespace Means

variable {e e' : Expression} {f g : Formula} {tokens more before after : List Token}

/-- Only evaluation matters. -/
theorem congr (means : Means e f tokens) (same : ∀ skipped, e'.eval skipped = e.eval skipped) :
    Means e' f tokens :=
  ⟨same true ▸ means.skipped, same false ▸ means.counted⟩

/-- There may be more tokens. -/
theorem mono (means : Means e f tokens) (present : tokens ⊆ more) : Means e f more :=
  ⟨means.skipped, means.counted.congr present rfl rfl⟩

/-- A value means what has the same value and the same type. -/
theorem value {v : Value} (known : f.value = some v.toInt) (type : v.unsigned = f.unsigned) :
    Means (.value v) f tokens :=
  ⟨⟨v, rfl, type⟩, (Formula.outcome_of_some known).mpr ⟨v, rfl, rfl, type⟩⟩

theorem unary (op : UnaryOp) (means : Means e f tokens) :
    Means (.unary op e) (.unary op f) tokens := by
  constructor
  · obtain ⟨v, evaluated, type⟩ := means.skipped
    refine ⟨op.apply v, by simp [eval, evaluated], ?_⟩
    rw [UnaryOp.unsigned_apply, type]
    rfl
  · have counted := means.counted
    cases value : f.value with
    | none =>
        apply counted.fail (List.Subset.refl _) value
        · simp [Formula.value, value]
        · intro failure failed
          simp only [eval, failed, bind, Except.bind]
    | some n =>
        have whole : (Formula.unary op f).value = some (op.meaning f.unsigned n) := by
          simp [Formula.value, value]
        rw [Formula.outcome_of_some value] at counted
        rw [Formula.outcome_of_some whole]
        obtain ⟨v, evaluated, rfl, type⟩ := counted
        refine ⟨op.apply v, by simp [eval, evaluated], ?_, ?_⟩
        · rw [UnaryOp.toInt_apply, type]
        · rw [UnaryOp.unsigned_apply, type]
          rfl

/-- A skipped operator has its type, whatever its operands may be. -/
theorem skipped_binary {op : BinaryOp} {token : Token} (left : Means e f before)
    (right : Means e' g after) :
    ∃ v, (Expression.binary op token e e').eval true = .ok v ∧
      v.unsigned = (Formula.binary op f g).unsigned := by
  obtain ⟨a, evaluatedLeft, typeLeft⟩ := left.skipped
  obtain ⟨b, evaluatedRight, typeRight⟩ := right.skipped
  rw [eval_binary evaluatedLeft evaluatedRight, Formula.unsigned, ← typeLeft, ← typeRight]
  cases computed : op.value? a b with
  | some v => exact ⟨v, rfl, BinaryOp.unsigned_value? a b computed⟩
  | none => exact ⟨_, rfl, (BinaryOp.type_of_value?_eq_none computed _ _).symm⟩

/-- An operator whose operands both have a value that it is computed from. -/
theorem outcome_binary {op : BinaryOp} {token : Token} {a b : Value}
    (isSymbol : token.isPunctuator op.symbol = true) (typeLeft : a.unsigned = f.unsigned)
    (typeRight : b.unsigned = g.unsigned) (evaluatedLeft : e.eval false = .ok a)
    (evaluatedRight : e'.eval (op.skipsRight a) = .ok b)
    (value : (Formula.binary op f g).value = op.meaning f.unsigned g.unsigned a.toInt b.toInt) :
    (Formula.binary op f g).Outcome (before ++ token :: after)
      ((Expression.binary op token e e').eval false) := by
  rw [eval_binary evaluatedLeft (by simpa using evaluatedRight)]
  rw [← typeLeft, ← typeRight, ← BinaryOp.map_toInt_value?] at value
  cases computed : op.value? a b with
  | some v =>
      rw [computed, Option.map_some] at value
      refine (Formula.outcome_of_some value).mpr ⟨v, rfl, rfl, ?_⟩
      rw [BinaryOp.unsigned_value? a b computed, typeLeft, typeRight]
      rfl
  | none =>
      have meaningless := BinaryOp.map_toInt_value? a b op
      rw [computed, Option.map_none] at value meaningless
      refine (Formula.outcome_of_none value).mpr ⟨token, by simp, ?_, rfl⟩
      exact BinaryOp.isDivision_of_meaning_eq_none isSymbol meaningless.symm

theorem binary {op : BinaryOp} {token : Token} (isSymbol : token.isPunctuator op.symbol = true)
    (left : Means e f before) (right : Means e' g after) :
    Means (.binary op token e e') (.binary op f g) (before ++ token :: after) := by
  refine ⟨skipped_binary left right, ?_⟩
  have countedLeft := left.counted
  cases valueLeft : f.value with
  | none =>
      apply countedLeft.fail (List.subset_append_left _ _) valueLeft
      · simp [Formula.value, valueLeft]
      · intro failure failed
        simp only [eval, failed, bind, Except.bind]
  | some n =>
      rw [Formula.outcome_of_some valueLeft] at countedLeft
      obtain ⟨a, evaluatedLeft, rfl, typeLeft⟩ := countedLeft
      have skips := BinaryOp.skipsRight_eq op a
      cases decided : op.decided? a.toInt with
      | some n =>
          -- The right operand is skipped, and the formula has a value without it.
          obtain ⟨b, evaluatedRight, typeRight⟩ := right.skipped
          apply outcome_binary isSymbol typeLeft typeRight evaluatedLeft
          · rw [skips, decided]
            exact evaluatedRight
          · rw [BinaryOp.meaning_of_decided? decided]
            simp [Formula.value, valueLeft, decided]
      | none =>
          rw [decided, Option.isSome_none] at skips
          have countedRight := right.counted
          cases valueRight : g.value with
          | none =>
              apply countedRight.fail subset_append_cons valueRight
              · simp [Formula.value, valueLeft, valueRight, decided]
              · intro failure failed
                simp only [eval, evaluatedLeft, bind, Except.bind, skips, Bool.or_false, failed]
          | some m =>
              rw [Formula.outcome_of_some valueRight] at countedRight
              obtain ⟨b, evaluatedRight, rfl, typeRight⟩ := countedRight
              apply outcome_binary isSymbol typeLeft typeRight evaluatedLeft
              · rw [skips]
                exact evaluatedRight
              · simp [Formula.value, valueLeft, valueRight, decided]

/-- The part that is chosen decides a choice. -/
theorem outcome_chosen {chosen : Expression} {outcome : Except Failure Value}
    (counted : f.Outcome tokens (chosen.eval false)) (present : tokens ⊆ more)
    (value : g.value = f.value.map (represent g.unsigned))
    (goesOn : ∀ v, chosen.eval false = .ok v → v.unsigned = f.unsigned →
      outcome = .ok ⟨v.bits, g.unsigned⟩)
    (fails : ∀ failure, chosen.eval false = .error failure → outcome = .error failure) :
    g.Outcome more outcome := by
  cases known : f.value with
  | none => exact counted.fail present known (by rw [value, known, Option.map_none]) fails
  | some n =>
      obtain ⟨v, evaluated, rfl, type⟩ := (Formula.outcome_of_some known).mp counted
      rw [known, Option.map_some] at value
      refine (Formula.outcome_of_some value).mpr ⟨_, goesOn v evaluated type, ?_, rfl⟩
      exact Value.toInt_as _ v

/-- A choice between two trees is a choice between the formulas they mean. -/
theorem conditional {test : Expression} {c : Formula} {between : List Token} {mark colon : Token}
    (meansTest : Means test c before) (first : Means e f between) (second : Means e' g after) :
    Means (.conditional test e e') (.choice c f g)
      (before ++ mark :: (between ++ colon :: after)) := by
  obtain ⟨a, skippedFirst, typeFirst⟩ := first.skipped
  obtain ⟨b, skippedSecond, typeSecond⟩ := second.skipped
  constructor
  · obtain ⟨x, evaluatedTest, -⟩ := meansTest.skipped
    refine ⟨_, eval_conditional evaluatedTest skippedFirst skippedSecond, ?_⟩
    simp only [typeFirst, typeSecond, Formula.unsigned]
  · have counted := meansTest.counted
    cases valueTest : c.value with
    | none =>
        apply counted.fail (List.subset_append_left _ _) valueTest
        · simp [Formula.value, valueTest]
        · intro failure failed
          simp only [eval, failed, bind, Except.bind]
    | some n =>
        obtain ⟨x, evaluatedTest, rfl, -⟩ := (Formula.outcome_of_some valueTest).mp counted
        cases isTrue : x.isTrue with
        | true =>
            have nonzero : x.toInt ≠ 0 := Value.isTrue_iff.mp isTrue
            have present : between ⊆ before ++ mark :: (between ++ colon :: after) :=
              List.Subset.trans (List.subset_append_left _ _) subset_append_cons
            apply outcome_chosen first.counted present
            · simp [Formula.value, Formula.unsigned, valueTest, nonzero]
            · intro v evaluated type
              rw [eval_conditional evaluatedTest (by simpa [isTrue] using evaluated)
                (by simpa [isTrue] using skippedSecond)]
              simp only [isTrue, if_true, type, typeSecond, Formula.unsigned]
            · intro failure failed
              simp only [eval, evaluatedTest, isTrue, failed, bind, Except.bind, Bool.not_true,
                Bool.or_false]
        | false =>
            have zero : x.toInt = 0 := by
              by_contra nonzero
              simp [Value.isTrue_iff.mpr nonzero] at isTrue
            have present : after ⊆ before ++ mark :: (between ++ colon :: after) :=
              List.Subset.trans subset_append_cons subset_append_cons
            apply outcome_chosen second.counted present
            · simp [Formula.value, Formula.unsigned, valueTest, zero]
            · intro v evaluated type
              rw [eval_conditional evaluatedTest (by simpa [isTrue] using skippedFirst)
                (by simpa [isTrue] using evaluated)]
              simp only [isTrue, Bool.false_eq_true, if_false, typeFirst, type, Formula.unsigned]
            · intro failure failed
              simp only [eval, evaluatedTest, isTrue, skippedFirst, failed, bind, Except.bind,
                Bool.not_false, Bool.or_true, Bool.or_false]

theorem comma {token : Token} (first : Means e f before) (second : Means e' g after) :
    Means (.comma e e') (.sequence f g) (before ++ token :: after) := by
  constructor
  · obtain ⟨a, evaluatedFirst, -⟩ := first.skipped
    rw [eval_comma evaluatedFirst]
    exact second.skipped
  · have counted := first.counted
    cases valueFirst : f.value with
    | none =>
        apply counted.fail (List.subset_append_left _ _) valueFirst
        · simp [Formula.value, valueFirst]
        · intro failure failed
          simp only [eval, failed, bind, Except.bind]
    | some n =>
        obtain ⟨a, evaluatedFirst, -⟩ := (Formula.outcome_of_some valueFirst).mp counted
        rw [eval_comma evaluatedFirst]
        exact second.counted.congr subset_append_cons (by simp [Formula.value, valueFirst]) rfl

end Means

end Expression

end CPreprocessor
