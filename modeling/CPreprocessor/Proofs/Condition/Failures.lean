/-
# How a condition fails

A condition that has no value is reported once, and a condition that has one is not
reported. The problem is a division by zero, a place where the grammar is broken, or an
operand without a value. All of these are errors but one: a character literal with an
unknown escape sequence is misspelt and has no value, and its misspelling is only warned
of. So a condition may fail with a warning, but at such a literal only
(`evaluateCondition_fails_once`).
-/
import CPreprocessor.Proofs.Condition.Correspondence

namespace CPreprocessor

/-- The token is a character literal with an escape sequence that the language does not have. -/
def Token.HasUnknownEscape (token : Token) : Prop :=
  token.kind = .character ∧ token.error = some .invalidEscapeSequence

namespace Expression

/-- The problems of the invalid leaves of a tree. -/
def failures : Expression → List Failure
  | value _ => []
  | invalid failure => [failure]
  | unary _ operand => operand.failures
  | binary _ _ left right => left.failures ++ right.failures
  | conditional test first second => test.failures ++ first.failures ++ second.failures
  | comma first second => first.failures ++ second.failures

theorem eq_error_of_bind {α β : Type} {x : Except Failure α} {f : α → Except Failure β}
    {failure : Failure} (failed : x >>= f = .error failure) :
    x = .error failure ∨ ∃ a, x = .ok a ∧ f a = .error failure := by
  cases x with
  | error other =>
    cases failed
    exact .inl rfl
  | ok a => exact .inr ⟨a, rfl, failed⟩

/-- A tree fails at one of its invalid leaves or because of a division by zero. -/
theorem mem_failures_of_eval {e : Expression} {skipped : Bool} {failure : Failure}
    (failed : e.eval skipped = .error failure) :
    failure ∈ e.failures ∨ failure.code = .divisionByZero := by
  induction e generalizing skipped with
  | value v => cases failed
  | invalid other =>
    cases failed
    exact .inl (List.mem_singleton.mpr rfl)
  | unary op operand ih =>
    obtain inner | ⟨v, -, applied⟩ := eq_error_of_bind failed
    · exact ih inner
    · cases applied
  | binary op token left right ihLeft ihRight =>
    obtain inner | ⟨a, -, failed⟩ := eq_error_of_bind failed
    · exact (ihLeft inner).imp_left (List.mem_append_left _)
    · obtain inner | ⟨b, -, failed⟩ := eq_error_of_bind failed
      · exact (ihRight inner).imp_left (List.mem_append_right _)
      · right
        cases computed : op.value? a b with
        | some v =>
          rw [computed] at failed
          cases failed
        | none =>
          rw [computed] at failed
          cases skipped <;> cases failed
          rfl
  | conditional test first second ihTest ihFirst ihSecond =>
    obtain inner | ⟨c, -, failed⟩ := eq_error_of_bind failed
    · exact (ihTest inner).imp_left fun member => by simp [failures, member]
    · obtain inner | ⟨a, -, failed⟩ := eq_error_of_bind failed
      · exact (ihFirst inner).imp_left fun member => by simp [failures, member]
      · obtain inner | ⟨b, -, failed⟩ := eq_error_of_bind failed
        · exact (ihSecond inner).imp_left fun member => by simp [failures, member]
        · cases failed
  | comma first second ihFirst ihSecond =>
    obtain inner | ⟨a, -, inner⟩ := eq_error_of_bind failed
    · exact (ihFirst inner).imp_left (List.mem_append_left _)
    · exact (ihSecond inner).imp_left (List.mem_append_right _)

/-! ## Leaves -/

theorem eq_error_of_mem_ofExcept {result : Except Failure Value} {failure : Failure}
    (inLeaf : failure ∈ (ofExcept result).failures) : result = .error failure := by
  cases result with
  | ok v => cases inLeaf
  | error other => rw [List.mem_singleton.mp inLeaf]

/-- A leaf is a value or a problem. -/
theorem eq_invalid_of_mem_leaf {token : Token} {failure : Failure}
    (inLeaf : failure ∈ (leaf token).failures) : leaf token = .invalid failure := by
  unfold leaf at inLeaf ⊢
  split at inLeaf
  · rw [eq_error_of_mem_ofExcept inLeaf]
    rfl
  · rw [eq_error_of_mem_ofExcept inLeaf]
    rfl
  · cases inLeaf
  · cases inLeaf
  · rw [List.mem_singleton.mp inLeaf]
  · rw [List.mem_singleton.mp inLeaf]

/-- A misspelt number is an error, and so is one that a condition cannot compute with. -/
theorem severity_of_integer {token : Token} {failure : Failure}
    (failed : IntegerLiteral.value token = .error failure) : failure.code.severity = .error := by
  simp only [IntegerLiteral.value] at failed
  repeat' split at failed
  all_goals cases failed
  all_goals rfl

/-- A misspelt character literal fails with its own problem, which is an error unless it is an unknown
escape sequence. -/
theorem failure_of_character {token : Token} {failure : Failure}
    (failed : CharacterLiteral.value token = .error failure) :
    failure.code.severity = .error ∨
      token.error = some .invalidEscapeSequence ∧
        failure = ⟨.invalidEscapeSequence, token, token.lexeme⟩ := by
  unfold CharacterLiteral.value at failed
  split at failed
  · rename_i error misspelt
    cases failed
    cases error with
    | invalidEscapeSequence => exact .inr ⟨misspelt, rfl⟩
    | _ => exact .inl rfl
  · cases failed

/-- An operand without a value is an error unless it is a literal with an unknown escape sequence. -/
theorem failure_of_leaf {token : Token} {failure : Failure} (invalid : leaf token = .invalid failure) :
    failure.code.severity = .error ∨
      token.HasUnknownEscape ∧ failure = ⟨.invalidEscapeSequence, token, token.lexeme⟩ := by
  have inLeaf : failure ∈ (leaf token).failures := by simp [invalid, failures]
  unfold leaf at inLeaf
  split at inLeaf
  · exact .inl (severity_of_integer (eq_error_of_mem_ofExcept inLeaf))
  · rename_i kind
    obtain severe | ⟨misspelt, same⟩ := failure_of_character (eq_error_of_mem_ofExcept inLeaf)
    · exact .inl severe
    · exact .inr ⟨⟨kind, misspelt⟩, same⟩
  · cases inLeaf
  · cases inLeaf
  · exact .inl (by rw [List.mem_singleton.mp inLeaf]; rfl)
  · exact .inl (by rw [List.mem_singleton.mp inLeaf]; rfl)

/-! ## Trees -/

/-- A problem that the tree of some tokens may have: the grammar is broken, or one of the tokens is an
operand without a value. -/
def IsFailureOf (tokens : List Token) (failure : Failure) : Prop :=
  failure.code = .invalidExpression ∨ ∃ token ∈ tokens, leaf token = .invalid failure

theorem isFailureOf_broken {tokens : List Token} {place : Option Token} {detail : Text}
    {failure : Failure}
    (inLeaf : failure ∈ (invalid ⟨.invalidExpression, place, detail⟩).failures) :
    IsFailureOf tokens failure :=
  .inl (by rw [List.mem_singleton.mp inLeaf])

/-- Conditions are compared with themselves, to see what fails in the tree of some tokens. -/
def failing (tokens : List Token) : Correspondence where
  Tokens _ token token' := token' = token ∧ token ∈ tokens
  Trees e e' := e' = e ∧ ∀ failure ∈ e.failures, IsFailureOf tokens failure
  isPunctuator := by rintro _ _ token symbol ⟨rfl, -⟩ _; rfl
  unaryOp? := by rintro _ token ⟨rfl, -⟩; rfl
  binaryOp? := by rintro _ token ⟨rfl, -⟩; rfl
  leaf := by
    rintro _ token ⟨rfl, member⟩ _
    exact ⟨rfl, fun failure inLeaf => .inr ⟨token, member, eq_invalid_of_mem_leaf inLeaf⟩⟩
  unexpected := by
    rintro _ token ⟨rfl, -⟩
    exact ⟨rfl, fun failure => isFailureOf_broken⟩
  broken := by
    rintro _ _ token detail ⟨rfl, -⟩
    exact ⟨rfl, fun failure => isFailureOf_broken⟩
  ended detail := ⟨rfl, fun failure => isFailureOf_broken⟩
  absent := ⟨rfl, fun _ inLeaf => absurd inLeaf List.not_mem_nil⟩
  unary := by rintro op _ e ⟨rfl, inner⟩; exact ⟨rfl, inner⟩
  binary := by
    rintro op _ token _ left _ right ⟨rfl, -⟩ ⟨rfl, inLeft⟩ ⟨rfl, inRight⟩
    exact ⟨rfl, List.forall_mem_append.mpr ⟨inLeft, inRight⟩⟩
  conditional := by
    rintro _ test _ first _ second ⟨rfl, inTest⟩ ⟨rfl, inFirst⟩ ⟨rfl, inSecond⟩
    exact ⟨rfl, List.forall_mem_append.mpr ⟨List.forall_mem_append.mpr ⟨inTest, inFirst⟩, inSecond⟩⟩
  comma := by
    rintro _ first _ second ⟨rfl, inFirst⟩ ⟨rfl, inSecond⟩
    exact ⟨rfl, List.forall_mem_append.mpr ⟨inFirst, inSecond⟩⟩

theorem lists_failing {tokens : List Token} (expected : Bool) {part : List Token}
    (inside : part ⊆ tokens) : (failing tokens).Lists expected part part := by
  induction part generalizing expected with
  | nil => exact .nil
  | cons token rest ih =>
    obtain ⟨member, later⟩ := List.cons_subset.mp inside
    exact .cons ⟨rfl, member⟩ (ih _ later)

/-- What can fail when some tokens are read and evaluated. -/
theorem failure_of_eval_read {tokens : List Token} {skipped : Bool} {failure : Failure}
    (failed : (read tokens).eval skipped = .error failure) :
    failure.code.severity = .error ∨
      ∃ token ∈ tokens, token.HasUnknownEscape ∧
        failure = ⟨.invalidEscapeSequence, token, token.lexeme⟩ := by
  have known := ((failing tokens).read (lists_failing true (List.Subset.refl tokens))).2
  obtain inTree | divides := mem_failures_of_eval failed
  · obtain broken | ⟨token, member, invalid⟩ := known failure inTree
    · exact .inl (by rw [broken]; rfl)
    · exact (failure_of_leaf invalid).imp_right fun unknown => ⟨token, member, unknown⟩
  · exact .inl (by rw [divides]; rfl)

end Expression

/-- A condition has a value and nothing is reported, or it has none and one problem is reported. The
problem is an error, or it is the unknown escape sequence of a character literal, of which there is only
a warning. -/
theorem evaluateCondition_fails_once (tokens : List Token) (directive : Token) (journal : Journal) :
    (∃ v, evaluateCondition tokens directive journal = (some v, journal)) ∨
      ∃ after d, evaluateCondition tokens directive journal = (none, after) ∧
        after.entries = journal.entries ++ [d] ∧
        (d.severity = .error ∨
          d.severity = .warning ∧ ∃ token ∈ tokens, token.HasUnknownEscape ∧
            after = journal.report token .invalidEscapeSequence token.lexeme) := by
  unfold evaluateCondition
  split
  · exact .inr ⟨_, _, rfl, rfl, .inl rfl⟩
  · rename_i first more words
    cases evaluated : (Expression.read (first :: more)).eval false with
    | ok v => exact .inl ⟨v, rfl⟩
    | error failure =>
      refine .inr ⟨_, _, rfl, rfl, ?_⟩
      obtain severe | ⟨token, member, unknown, rfl⟩ := Expression.failure_of_eval_read evaluated
      · exact .inl severe
      · rw [← words] at member
        exact .inr ⟨rfl, token, (List.mem_filter.mp member).1, unknown, rfl⟩

/-- The escape sequence of `'\q'` is unknown. -/
example :
    let literal : Token :=
      { kind := .character, lexeme := ['\'', '\\', 'q', '\''], error := some .invalidEscapeSequence }
    (evaluateCondition [literal] literal {}).1 = none ∧
      (evaluateCondition [literal] literal {}).2.entries.map (·.severity) = [.warning] := by
  intro literal
  rw [evaluateCondition_singleton (by decide) (by decide) (by decide)]
  decide

end CPreprocessor
