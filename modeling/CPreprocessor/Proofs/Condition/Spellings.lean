/-
# Operators that are written as names

Eight operators have a second spelling, which is a name. The reader takes the name for the
operator wherever it asks for operators, so the two spellings may be exchanged there. Where
it asks for an operand it looks for operators with one operand only. A name that stands for
an operator with two operands is an operand then, like any other name: it counts as zero,
where the operator itself breaks the grammar. So a condition with a value keeps it in
another spelling, and a condition without one gets none, unless an operator with two
operands is respelt where an operand is expected (`evaluateCondition_respelt`).
-/
import CPreprocessor.Proofs.Condition.Correspondence

namespace CPreprocessor

/-- The operators that have a second spelling, with that spelling. -/
def operatorSpellings : List (Text × Text) :=
  [(['|', '|'], "or".toList), (['&', '&'], "and".toList), (['|'], "bitor".toList),
    (['^'], "xor".toList), (['&'], "bitand".toList), (['!', '='], "not_eq".toList),
    (['!'], "not".toList), (['~'], "compl".toList)]

namespace Token

/-- The token is an operator, and the other one is a name that spells it. -/
def IsRespelt (token token' : Token) : Prop :=
  ∃ entry ∈ operatorSpellings, token.isPunctuator entry.1 = true ∧ token'.isNamed entry.2 = true

variable {token token' : Token} {name : Text}

theorem isNamed_iff :
    token.isNamed name = true ↔ token.isName = true ∧ token.lexeme = name := by
  simp [isNamed]

theorem isNamed_of_isNamed (isName : token.isNamed name = true) (other : Text) :
    token.isNamed other = (name == other) := by
  obtain ⟨kind, rfl⟩ := isNamed_iff.mp isName
  simp [isNamed, kind]

theorem kind_of_isNamed (isName : token.isNamed name = true) :
    token.kind = .identifier ∨ token.kind = .keyword := by
  simpa [Token.isName] using (isNamed_iff.mp isName).1

theorem isPunctuator_of_isNamed (isName : token.isNamed name = true) (symbol : Text) :
    token.isPunctuator symbol = false := by
  obtain kind | kind := kind_of_isNamed isName <;> simp [isPunctuator, kind]

theorem IsRespelt.isEnd (respelt : token.IsRespelt token') :
    token.isEnd = false ∧ token'.isEnd = false := by
  obtain ⟨entry, -, isSymbol, isName⟩ := respelt
  have kind := (isPunctuator_iff.mp isSymbol).1
  obtain kind' | kind' := kind_of_isNamed isName <;> simp [Token.isEnd, kind, kind']

end Token

namespace Expression

open Token

variable {token token' : Token}

/-- An operator and a name that spells it are no other punctuator. -/
theorem isPunctuator_of_isRespelt (respelt : token.IsRespelt token') {symbol : Text}
    (isMark : symbol ∈ marks) :
    token.isPunctuator symbol = false ∧ token'.isPunctuator symbol = false := by
  obtain ⟨entry, listed, isSymbol, isName⟩ := respelt
  refine ⟨?_, isPunctuator_of_isNamed isName symbol⟩
  have others : ∀ entry ∈ operatorSpellings, ∀ symbol ∈ marks, entry.1 ≠ symbol := by decide
  rw [isPunctuator_of_isPunctuator isSymbol]
  exact beq_eq_false_iff_ne.mpr (others entry listed symbol isMark)

/-- Both spellings are the same operator with one operand. -/
theorem unaryOp?_of_isRespelt (respelt : token.IsRespelt token') :
    unaryOp? token' = unaryOp? token := by
  obtain ⟨entry, listed, isSymbol, isName⟩ := respelt
  simp only [unaryOp?, isOperator, isPunctuator_of_isPunctuator isSymbol,
    isNamed_of_isPunctuator isSymbol, isPunctuator_of_isNamed isName, isNamed_of_isNamed isName]
  clear isSymbol isName
  revert entry
  decide

/-- Both spellings are the same operator with two operands. -/
theorem binaryOp?_of_isRespelt (respelt : token.IsRespelt token') :
    binaryOp? token' = binaryOp? token := by
  obtain ⟨entry, listed, isSymbol, isName⟩ := respelt
  have unnamed : token.isNamed = fun _ => false := funext (isNamed_of_isPunctuator isSymbol)
  have named : token'.isNamed = (entry.2 == ·) := funext (isNamed_of_isNamed isName)
  simp only [binaryOp?, isPunctuator_of_isPunctuator isSymbol, isPunctuator_of_isNamed isName,
    unnamed, named]
  clear unnamed named isSymbol isName
  revert entry
  decide

/-- An operator is no operand, and a name that spells it is the operand zero. -/
theorem leaf_of_isRespelt (respelt : token.IsRespelt token') :
    (∃ failure, leaf token = .invalid failure) ∧ leaf token' = .value (.ofBool false) := by
  obtain ⟨entry, listed, isSymbol, isName⟩ := respelt
  refine ⟨leaf_of_isPunctuator (isPunctuator_iff.mp isSymbol).1, ?_⟩
  have noTrue : ∀ entry ∈ operatorSpellings, (entry.2 == "true".toList) = false := by decide
  have lexeme : (token'.lexeme == "true".toList) = false := by
    rw [(isNamed_iff.mp isName).2]
    exact noTrue entry listed
  obtain kind | kind := kind_of_isNamed isName <;> simp only [leaf, kind, lexeme]

/-! ## Trees -/

/-- Trees with the same values and operators. An invalid leaf may be replaced by a value if names may
stand for operands. -/
inductive Alike (stands : Prop) : Expression → Expression → Prop
  | value (v : Value) : Alike stands (.value v) (.value v)
  | invalid (failure failure' : Failure) : Alike stands (.invalid failure) (.invalid failure')
  | operand (allowed : stands) (failure : Failure) (v : Value) :
      Alike stands (.invalid failure) (.value v)
  | unary (op : UnaryOp) {e e' : Expression} (inner : Alike stands e e') :
      Alike stands (.unary op e) (.unary op e')
  | binary (op : BinaryOp) (token token' : Token) {left left' right right' : Expression}
      (lefts : Alike stands left left') (rights : Alike stands right right') :
      Alike stands (.binary op token left right) (.binary op token' left' right')
  | conditional {test test' first first' second second' : Expression} (tests : Alike stands test test')
      (firsts : Alike stands first first') (seconds : Alike stands second second') :
      Alike stands (.conditional test first second) (.conditional test' first' second')
  | comma {first first' second second' : Expression} (firsts : Alike stands first first')
      (seconds : Alike stands second second') :
      Alike stands (.comma first second) (.comma first' second')

theorem Alike.refl (stands : Prop) (e : Expression) : Alike stands e e := by
  induction e with
  | value v => exact .value v
  | invalid failure => exact .invalid failure failure
  | unary op operand ih => exact .unary op ih
  | binary op token left right ihLeft ihRight => exact .binary op token token ihLeft ihRight
  | conditional test first second ihTest ihFirst ihSecond => exact .conditional ihTest ihFirst ihSecond
  | comma first second ihFirst ihSecond => exact .comma ihFirst ihSecond

/-- The value of a tree, if it has one. -/
def value? (skipped : Bool) (e : Expression) : Option Value :=
  (e.eval skipped).toOption

theorem toOption_bind {α β : Type} (x : Except Failure α) (f : α → Except Failure β) :
    (x >>= f).toOption = x.toOption.bind fun a => (f a).toOption := by
  cases x <;> rfl

/-- An equation that holds as far as a first part has a value, or not. -/
theorem bind_eq_or {α β : Type} {stands : Prop} {x x' : Option α} {f f' : α → Option β}
    (firsts : x' = x ∨ stands ∧ x = none) (laters : ∀ a, f' a = f a ∨ stands ∧ f a = none) :
    x'.bind f' = x.bind f ∨ stands ∧ x.bind f = none := by
  obtain rfl | ⟨allowed, rfl⟩ := firsts
  · cases x' with
    | none => exact .inl rfl
    | some a => exact laters a
  · exact .inr ⟨allowed, rfl⟩

/-- Trees that are alike have the same value, unless the first one has none and names may stand for
operands. -/
theorem Alike.value?_eq {stands : Prop} {e e' : Expression} (alike : Alike stands e e')
    (skipped : Bool) :
    e'.value? skipped = e.value? skipped ∨ stands ∧ e.value? skipped = none := by
  induction alike generalizing skipped with
  | value v => exact .inl rfl
  | invalid failure failure' => exact .inl rfl
  | operand allowed failure v => exact .inr ⟨allowed, rfl⟩
  | unary op inner ih =>
    simp only [value?, eval, toOption_bind]
    exact bind_eq_or (ih skipped) fun a => .inl rfl
  | binary op token token' lefts rights ihLeft ihRight =>
    simp only [value?, eval, toOption_bind]
    refine bind_eq_or (ihLeft skipped) fun a => bind_eq_or (ihRight _) fun b => .inl ?_
    cases op.value? a b with
    | some v => rfl
    | none => cases skipped <;> rfl
  | conditional tests firsts seconds ihTest ihFirst ihSecond =>
    simp only [value?, eval, toOption_bind]
    exact bind_eq_or (ihTest skipped) fun c =>
      bind_eq_or (ihFirst _) fun a => bind_eq_or (ihSecond _) fun b => .inl rfl
  | comma firsts seconds ihFirst ihSecond =>
    simp only [value?, eval, toOption_bind]
    exact bind_eq_or (ihFirst skipped) fun a => ihSecond skipped

/-! ## Reading -/

/-- Operators are respelt. If names may stand for operands, operators with two operands are respelt also
where an operand is expected. -/
def respelling (stands : Prop) : Correspondence where
  Tokens expected token token' :=
    token' = token ∨
      token.IsRespelt token' ∧ (expected = true → unaryOp? token = none → stands)
  Trees := Alike stands
  isPunctuator := by
    rintro expected token token' symbol (rfl | ⟨respelt, -⟩) isMark
    · rfl
    · obtain ⟨none, none'⟩ := isPunctuator_of_isRespelt respelt isMark
      rw [none, none']
  unaryOp? := by
    rintro token token' (rfl | ⟨respelt, -⟩)
    · rfl
    · exact unaryOp?_of_isRespelt respelt
  binaryOp? := by
    rintro token token' (rfl | ⟨respelt, -⟩)
    · rfl
    · exact binaryOp?_of_isRespelt respelt
  leaf := by
    rintro token token' (rfl | ⟨respelt, allowed⟩) noOperator
    · exact .refl _ _
    · obtain ⟨⟨failure, invalid⟩, value⟩ := leaf_of_isRespelt respelt
      rw [invalid, value]
      exact .operand (allowed rfl noOperator) failure _
  unexpected _ := .invalid _ _
  broken _ _ := .invalid _ _
  ended _ := .invalid _ _
  absent := .value _
  unary op _ _ inner := .unary op inner
  binary op _ _ _ _ _ _ _ lefts rights := .binary op _ _ lefts rights
  conditional tests firsts seconds := .conditional tests firsts seconds
  comma firsts seconds := .comma firsts seconds

/-- Whether an operand is expected after some tokens of a condition. -/
def operandExpected (expected : Bool) (tokens : List Token) : Bool :=
  (tokens.filter (!·.isEnd)).foldl expectsOperand expected

/-- Only operators with one operand are respelt where an operand is expected. -/
def IsInPlace (expected : Bool) (tokens tokens' : List Token) : Prop :=
  ∀ i token, tokens[i]? = some token → tokens'[i]? ≠ some token → unaryOp? token = none →
    operandExpected expected (tokens.take i) = false

theorem lists_respelling {stands : Prop} {expected : Bool} {tokens tokens' : List Token}
    (respelt : List.Forall₂ (fun token token' => token' = token ∨ token.IsRespelt token') tokens tokens')
    (allowed : stands ∨ IsInPlace expected tokens tokens') :
    (respelling stands).Lists expected (tokens.filter (!·.isEnd)) (tokens'.filter (!·.isEnd)) := by
  induction respelt generalizing expected with
  | nil => exact .nil
  | @cons token token' rest rest' here later ih =>
    have ends : token'.isEnd = token.isEnd := by
      obtain rfl | respelt := here
      · rfl
      · rw [respelt.isEnd.1, respelt.isEnd.2]
    -- What is in place behind the first token is so after what that token makes expected.
    have rests : stands ∨ IsInPlace (operandExpected expected [token]) rest rest' := by
      refine allowed.imp_right fun inPlace i other here changed noOperator => ?_
      rw [← inPlace (i + 1) other (by simpa using here) (by simpa using changed) noOperator]
      rw [operandExpected, operandExpected, operandExpected, ← List.foldl_append, ← List.filter_append]
      rfl
    cases inside : token.isEnd with
    | true =>
      rw [inside] at ends
      have same : operandExpected expected [token] = expected := by simp [operandExpected, inside]
      rw [same] at rests
      simpa [inside, ends] using ih rests
    | false =>
      rw [inside] at ends
      have next : operandExpected expected [token] = expectsOperand expected token := by
        simp [operandExpected, inside]
      rw [next] at rests
      simp only [List.filter_cons, inside, ends, Bool.not_false, if_true]
      refine .cons ?_ (ih rests)
      by_cases same : token' = token
      · exact .inl same
      · refine .inr ⟨here.resolve_left same, fun expects noOperator => ?_⟩
        refine allowed.resolve_right fun inPlace => ?_
        have unexpected := inPlace 0 token rfl (by simpa using same) noOperator
        rw [operandExpected, List.take_zero, List.filter_nil, List.foldl_nil, expects] at unexpected
        cases unexpected

end Expression

/-- The value of a condition is that of its tree. -/
theorem value_evaluateCondition (tokens : List Token) (directive : Token) (journal : Journal) :
    (evaluateCondition tokens directive journal).1
      = (Expression.read (tokens.filter (!·.isEnd))).value? false := by
  unfold evaluateCondition
  split
  · rename_i empty
    rw [empty, Expression.read_of_readUnary Expression.readUnary_nil]
    rfl
  · rename_i first more words
    rw [words, Expression.value?]
    cases (Expression.read (first :: more)).eval false <;> rfl

/-- Operators may be respelt in a condition that has a value, and the value stays the same. They may be
respelt in any condition, which has the same value then or has none then either, if operators with two
operands are respelt only where no operand is expected. -/
theorem evaluateCondition_respelt {tokens tokens' : List Token}
    (respelt : List.Forall₂ (fun token token' => token' = token ∨ token.IsRespelt token') tokens tokens')
    (directive : Token) (journal : Journal) :
    (∀ v, (evaluateCondition tokens directive journal).1 = some v →
        (evaluateCondition tokens' directive journal).1 = some v) ∧
      (Expression.IsInPlace true tokens tokens' →
        (evaluateCondition tokens' directive journal).1
          = (evaluateCondition tokens directive journal).1) := by
  simp only [value_evaluateCondition]
  constructor
  · intro v known
    have alike := (Expression.respelling True).read (Expression.lists_respelling respelt (.inl trivial))
    obtain same | ⟨-, none⟩ := alike.value?_eq false
    · rw [same, known]
    · rw [none] at known
      cases known
  · intro inPlace
    have alike := (Expression.respelling False).read (Expression.lists_respelling respelt (.inr inPlace))
    obtain same | ⟨⟨⟩, -⟩ := alike.value?_eq false
    exact same

/-- `!0 || 0` may be written `not 0 or 0`. -/
theorem evaluateCondition_respelt_not_or :
    let symbol (lexeme : Text) : Token := { kind := .punctuator, lexeme }
    let name (lexeme : Text) : Token := { kind := .keyword, lexeme }
    let zero : Token := { kind := .number, lexeme := ['0'] }
    let tokens := [symbol ['!'], zero, symbol ['|', '|'], zero]
    let tokens' := [name "not".toList, zero, name "or".toList, zero]
    List.Forall₂ (fun token token' => token' = token ∨ token.IsRespelt token') tokens tokens' ∧
      Expression.IsInPlace true tokens tokens' ∧
      (evaluateCondition tokens' zero {}).1 = (evaluateCondition tokens zero {}).1 := by
  intro symbol name zero tokens tokens'
  have respelt :
      List.Forall₂ (fun token token' => token' = token ∨ token.IsRespelt token') tokens tokens' := by
    refine .cons (.inr ⟨(['!'], "not".toList), by decide, rfl, rfl⟩) (.cons (.inl rfl) ?_)
    exact .cons (.inr ⟨(['|', '|'], "or".toList), by decide, rfl, rfl⟩) (.cons (.inl rfl) .nil)
  have inPlace : Expression.IsInPlace true tokens tokens' := by
    rintro (_ | _ | _ | _ | i) token here changed noOperator
    · cases here
      cases noOperator
    · exact absurd here changed
    · decide
    · exact absurd here changed
    · cases here
  exact ⟨respelt, inPlace, (evaluateCondition_respelt respelt zero {}).2 inPlace⟩

/-- The operator `&&` is no condition, but its name is one. -/
example :
    let symbol : Token := { kind := .punctuator, lexeme := ['&', '&'] }
    let name : Token := { kind := .keyword, lexeme := "and".toList }
    (evaluateCondition [symbol] symbol {}).1 = none ∧
      (evaluateCondition [name] symbol {}).1 = some (.ofBool false) := by
  intro symbol name
  rw [evaluateCondition_singleton (by decide) (by decide) (by decide),
    evaluateCondition_singleton (by decide) (by decide) (by decide)]
  decide

end CPreprocessor
