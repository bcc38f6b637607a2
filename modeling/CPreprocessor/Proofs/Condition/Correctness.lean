/-
# Conditions have the value they are written for

Every writing of a formula is read as a tree that means the formula, so a condition
has the value of the formula that is written, or fails where it divides by zero; and
words that are no writing of a formula have no value.

A level of the reader does not stop after an operand: it goes on with the operators
of the level. For a writing of a formula the statement is therefore that the level
reads all of it and has become what it would be at this place with a tree that means
the formula in hand.
-/
import CPreprocessor.Proofs.Condition.Acceptance
import CPreprocessor.Proofs.Condition.Evaluation

namespace CPreprocessor.Expression

open Formula

/-! ## Where a level goes on -/

/-- The tokens do not start with an operator of a tighter level. -/
def NoTighter (level : Nat) (rest : List Token) : Prop :=
  ∀ token ∈ rest.head?, ∀ op, binaryOp? token = some op → level ≤ op.level

/-- The tokens start neither with an operator nor with the mark of a choice. -/
def NoChoice (rest : List Token) : Prop :=
  NoTighter choiceLevel rest ∧ ∀ token ∈ rest.head?, token.isPunctuator ['?'] = false

theorem NoTighter.mono {level tighter : Nat} {rest : List Token} (stops : NoTighter level rest)
    (allowed : tighter ≤ level) : NoTighter tighter rest :=
  fun token first op isOperator => Nat.le_trans allowed (stops token first op isOperator)

theorem noTighter_of_symbol {level : Nat} {op : BinaryOp} {token : Token} {rest : List Token}
    (isSymbol : token.isPunctuator op.symbol = true) (loose : level ≤ op.level) :
    NoTighter level (token :: rest) := by
  rintro _ ⟨⟩ other isOperator
  rw [binaryOp?_of_symbol isSymbol, Option.some.injEq] at isOperator
  exact isOperator ▸ loose

/-- The other punctuators of formulas are no operators. -/
theorem noTighter_of_other {level : Nat} {symbol : Text} {token : Token} {rest : List Token}
    (isSymbol : token.isPunctuator symbol = true) (other : symbol ∈ marks) :
    NoTighter level (token :: rest) := by
  rintro _ ⟨⟩ op isOperator
  rw [binaryOp?_of_mark isSymbol other] at isOperator
  cases isOperator

/-- What a level of operators makes of an operand and the tokens after it. -/
def afterOperand : Nat → Expression → List Token → Expression × List Token
  | 0, e, rest => (e, rest)
  | tighter + 1, e, rest => (readOperators tighter e rest).result

/-- What a sequence makes of its first part and the tokens after it. -/
def afterChoice (e : Expression) : List Token → Expression × List Token
  | [] => (e, [])
  | token :: after =>
    if token.isPunctuator [','] then
      (.comma e (readComma after).result.1, (readComma after).result.2)
    else
      (e, token :: after)

/-- Two results leave the same tokens and evaluate to the same. -/
def SameEval (a b : Expression × List Token) : Prop :=
  a.2 = b.2 ∧ ∀ skipped, a.1.eval skipped = b.1.eval skipped

/-- A level of operators stops before anything that is no operator of the level. -/
theorem afterOperand_of_noTighter {level : Nat} {e : Expression} {rest : List Token}
    (stops : NoTighter (level + 1) rest) : afterOperand level e rest = (e, rest) := by
  cases level with
  | zero => rfl
  | succ tighter =>
      cases rest with
      | nil => exact readOperators_nil tighter e
      | cons token after =>
          have noOperator : (binaryOp? token).filter (·.level = tighter + 1) = none := by
            rw [Option.filter_eq_none_iff]
            intro op isOperator
            have loose := stops token rfl op isOperator
            simp only [decide_eq_true_eq]
            omega
          rw [afterOperand, readOperators_cons, noOperator]

theorem afterChoice_of_no_comma {e : Expression} {token : Token} {rest : List Token}
    (noComma : token.isPunctuator [','] = false) :
    afterChoice e (token :: rest) = (e, token :: rest) := by
  simp [afterChoice, noComma]

/-! ## Reading a writing of a formula -/

/-- A level of operators reads the writing of a formula. -/
def ReadsOperand (level : Nat) (f : Formula) (tokens : List Token) : Prop :=
  ∀ rest, NoTighter level rest → ∃ e, Means e f tokens ∧
    (readBinary level (tokens ++ rest)).result = afterOperand level e rest

/-- A choice reads the writing of a formula. -/
def ReadsChoice (f : Formula) (tokens : List Token) : Prop :=
  ∀ rest, NoChoice rest → ∃ e, Means e f tokens ∧
    (readConditional (tokens ++ rest)).result = (e, rest)

/-- A sequence reads the writing of a formula. Its tree may have another shape, because the reader
joins the parts of a sequence from the right. -/
def ReadsSequence (f : Formula) (tokens : List Token) : Prop :=
  ∀ rest, NoChoice rest → ∃ e, Means e f tokens ∧
    SameEval (readComma (tokens ++ rest)).result (afterChoice e rest)

/-- The level of a writing reads it. -/
def Reads (level : Nat) (f : Formula) (tokens : List Token) : Prop :=
  if level < choiceLevel then ReadsOperand level f tokens
  else if level = choiceLevel then ReadsChoice f tokens
  else ReadsSequence f tokens

variable {f g : Formula} {tokens : List Token}

theorem ReadsOperand.loosen {level : Nat} (reads : ReadsOperand level f tokens) :
    ReadsOperand (level + 1) f tokens := by
  intro rest stops
  obtain ⟨e, means, result⟩ := reads rest (stops.mono (Nat.le_succ _))
  refine ⟨e, means, ?_⟩
  rw [readBinary_succ, result, afterOperand_of_noTighter stops]
  rfl

theorem ReadsOperand.mono {level looser : Nat} (reads : ReadsOperand level f tokens)
    (allowed : level ≤ looser) : ReadsOperand looser f tokens := by
  induction allowed with
  | refl => exact reads
  | step _ ih => exact ih.loosen

theorem ReadsOperand.choice (reads : ReadsOperand loosest f tokens) : ReadsChoice f tokens := by
  rintro rest ⟨stops, noMark⟩
  obtain ⟨e, means, result⟩ := reads rest (stops.mono (by decide))
  have stopped : afterOperand loosest e rest = (e, rest) := afterOperand_of_noTighter stops
  refine ⟨e, means, ?_⟩
  rw [readConditional_result, result, stopped]
  cases rest with
  | nil => rfl
  | cons token rest => simp [noMark token rfl]

theorem ReadsChoice.sequence (reads : ReadsChoice f tokens) : ReadsSequence f tokens := by
  intro rest stops
  obtain ⟨e, means, result⟩ := reads rest stops
  refine ⟨e, means, ?_⟩
  rw [readComma_result, result]
  cases rest with
  | nil => exact ⟨rfl, fun _ => rfl⟩
  | cons token rest => exact ⟨rfl, fun _ => rfl⟩

theorem ReadsChoice.reads {level : Nat} (reads : ReadsChoice f tokens)
    (allowed : choiceLevel ≤ level) : Reads level f tokens := by
  rw [Reads, if_neg (Nat.not_lt.mpr allowed)]
  split
  · exact reads
  · exact reads.sequence

theorem ReadsOperand.reads {level looser : Nat} (reads : ReadsOperand level f tokens)
    (tight : level < choiceLevel) (allowed : level ≤ looser) : Reads looser f tokens := by
  by_cases operand : looser < choiceLevel
  · rw [Reads, if_pos operand]
    exact reads.mono allowed
  · exact (reads.mono (Nat.le_of_lt_succ tight)).choice.reads (Nat.not_lt.mp operand)

/-! ### Operands -/

/-- A token that is no operator starts a leaf or an expression in parentheses. -/
theorem readBinary_of_primary {token : Token} {after : List Token}
    (noOperator : unaryOp? token = none) :
    (readBinary 0 (token :: after)).result = (readPrimary token after).result := by
  rw [readBinary_zero, readUnary_cons, noOperator]

theorem readsOperand_leaf {token : Token} (noOperator : unaryOp? token = none)
    (closed : token.isOpen = false) (means : Means (leaf token) f [token]) :
    ReadsOperand 0 f [token] := by
  intro rest _
  refine ⟨leaf token, means, ?_⟩
  rw [List.singleton_append, readBinary_of_primary noOperator, readPrimary_result, closed]
  rfl

/-- A token of another kind is no operator and no parenthesis. -/
theorem noOperator_of_kind {token : Token} (kind : token.kind ≠ .punctuator)
    (ordinary : ∀ name ∈ operatorNames, token.isNamed name = false) :
    unaryOp? token = none ∧ token.isOpen = false := by
  have noPunctuator (symbol : Text) : token.isPunctuator symbol = false := by
    simp [Token.isPunctuator, kind]
  have noNot : token.isNamed "not".toList = false := ordinary _ (by decide)
  have noCompl : token.isNamed "compl".toList = false := ordinary _ (by decide)
  constructor
  · simp only [unaryOp?, isOperator, noPunctuator, noNot, noCompl]
    rfl
  · exact noPunctuator _

theorem reads_constant {i : IntegerConstant} {token : Token} (spells : i.Spells token) :
    ReadsOperand 0 (.constant i) [token] := by
  have notName (name : Text) : token.isNamed name = false := by
    simp [Token.isNamed, Token.isName, spells.1]
  obtain ⟨noOperator, closed⟩ := noOperator_of_kind (by simp [spells.1]) fun name _ => notName name
  apply readsOperand_leaf noOperator closed
  rw [leaf, spells.1]
  simp only [IntegerConstant.value_of_spells spells, ofExcept]
  have word : BitVec.ofNat 64 i.value = BitVec.ofInt 64 i.value := (BitVec.ofInt_natCast _ _).symm
  have small : (i.value : Int) < 2 ^ 64 := by exact_mod_cast i.number_lt
  apply Means.value
  · rw [Formula.value, word, Value.toInt_ofInt, represent]
    congr 1
    cases unsigned : i.unsigned with
    | true => exact (Int.emod_eq_of_lt (Int.natCast_nonneg _) small).symm
    | false =>
        have fits : i.value < 2 ^ 63 := by
          simp only [IntegerConstant.unsigned, Bool.or_eq_false_iff, decide_eq_false_iff_not]
            at unsigned
          omega
        simp only [Bool.false_eq_true, if_false]
        rw [Int.bmod_eq_of_le] <;> omega
  · rfl

theorem reads_named {token : Token} (isName : token.isName = true)
    (ordinary : token.lexeme ∉ operatorNames) :
    ReadsOperand 0 (.named token.lexeme ordinary) [token] := by
  have kind : token.kind = .identifier ∨ token.kind = .keyword := by
    simpa [Token.isName] using isName
  have word : token.IsWord := .inr (.inl ⟨isName, ordinary⟩)
  obtain ⟨noOperator, closed⟩ :=
    noOperator_of_kind (by rcases kind with kind | kind <;> simp [kind])
      fun name listed => word.isNamed_of_mem listed
  apply readsOperand_leaf noOperator closed
  have leafValue : leaf token = .value (.ofBool (token.lexeme == "true".toList)) := by
    rcases kind with kind | kind <;> simp [leaf, kind]
  rw [leafValue]
  apply Means.value
  · rw [Formula.value, Value.toInt_ofBool]
    exact congrArg some (truth_congr beq_iff_eq.symm)
  · rfl

theorem reads_parentheses {opening closing : Token} (opens : opening.isOpen = true)
    (closes : closing.isClose = true) (inner : ReadsSequence f tokens) :
    ReadsOperand 0 f (opening :: (tokens ++ [closing])) := by
  intro rest _
  have noOperator : unaryOp? opening = none := by
    simp only [unaryOp?, isOperator, Token.isPunctuator_of_isPunctuator opens,
      Token.isNamed_of_isPunctuator opens]
    rfl
  have stops : NoChoice (closing :: rest) := by
    refine ⟨noTighter_of_other closes (by decide), ?_⟩
    rintro _ ⟨⟩
    rw [Token.isPunctuator_of_isPunctuator closes]
    rfl
  have noComma : closing.isPunctuator [','] = false := by
    rw [Token.isPunctuator_of_isPunctuator closes]
    rfl
  obtain ⟨e, means, remains, same⟩ := inner (closing :: rest) stops
  rw [afterChoice_of_no_comma noComma] at remains same
  refine ⟨(readComma (tokens ++ closing :: rest)).result.1, ?_, ?_⟩
  · exact (means.congr same).mono
      (List.Subset.trans (List.subset_append_left _ _) (List.subset_cons_self _ _))
  · rw [List.cons_append, readBinary_of_primary noOperator, readPrimary_result, if_pos opens,
      List.append_assoc, List.singleton_append]
    generalize (readComma (tokens ++ closing :: rest)).result = result at remains
    obtain ⟨tree, left⟩ := result
    cases remains
    simp [closes, afterOperand]

theorem reads_unary {op : UnaryOp} {token : Token} (isSymbol : token.isPunctuator op.symbol = true)
    (inner : ReadsOperand 0 f tokens) : ReadsOperand 0 (.unary op f) (token :: tokens) := by
  intro rest stops
  obtain ⟨e, means, result⟩ := inner rest stops
  refine ⟨.unary op e, (means.unary op).mono (List.subset_cons_self _ _), ?_⟩
  rw [readBinary_zero] at result ⊢
  rw [List.cons_append, readUnary_cons, unaryOp?_of_symbol isSymbol]
  simp only [result]
  rfl

/-! ### Operators with two operands -/

theorem reads_binary {op : BinaryOp} {token : Token} {before after : List Token}
    (isSymbol : token.isPunctuator op.symbol = true) (inLeft : ReadsOperand op.level f before)
    (inRight : ReadsOperand (op.level - 1) g after) :
    ReadsOperand op.level (.binary op f g) (before ++ token :: after) := by
  intro rest stops
  obtain ⟨tighter, level⟩ : ∃ tighter, op.level = tighter + 1 := by
    cases op <;> exact ⟨_, rfl⟩
  have next : NoTighter op.level (token :: (after ++ rest)) :=
    noTighter_of_symbol isSymbol (Nat.le_refl _)
  obtain ⟨left, meansLeft, resultLeft⟩ := inLeft _ next
  obtain ⟨right, meansRight, resultRight⟩ := inRight rest (stops.mono (Nat.sub_le _ _))
  refine ⟨.binary op token left right, meansLeft.binary isSymbol meansRight, ?_⟩
  rw [List.append_assoc, List.cons_append, resultLeft]
  rw [level] at resultRight stops ⊢
  simp only [Nat.add_sub_cancel] at resultRight
  rw [afterOperand_of_noTighter stops] at resultRight
  have found : (binaryOp? token).filter (·.level = tighter + 1) = some op := by
    simp [binaryOp?_of_symbol isSymbol, level]
  simp only [afterOperand, readOperators_cons, found]
  rw [resultRight]

/-! ### Choices and sequences -/

theorem reads_choice {c : Formula} {mark colon : Token} {before between after : List Token}
    (isMark : mark.isPunctuator ['?'] = true) (isColon : colon.isPunctuator [':'] = true)
    (inTest : ReadsOperand loosest c before) (inFirst : ReadsSequence f between)
    (inSecond : ReadsChoice g after) :
    ReadsChoice (.choice c f g) (before ++ mark :: (between ++ colon :: after)) := by
  intro rest stops
  have stopsTest : NoTighter choiceLevel (mark :: (between ++ colon :: (after ++ rest))) :=
    noTighter_of_other isMark (by decide)
  obtain ⟨test, meansTest, resultTest⟩ := inTest _ (stopsTest.mono (by decide))
  have stopped :
      afterOperand loosest test (mark :: (between ++ colon :: (after ++ rest))) =
        (test, mark :: (between ++ colon :: (after ++ rest))) :=
    afterOperand_of_noTighter stopsTest
  have stopsFirst : NoChoice (colon :: (after ++ rest)) := by
    refine ⟨noTighter_of_other isColon (by decide), ?_⟩
    rintro _ ⟨⟩
    rw [Token.isPunctuator_of_isPunctuator isColon]
    rfl
  have noComma : colon.isPunctuator [','] = false := by
    rw [Token.isPunctuator_of_isPunctuator isColon]
    rfl
  obtain ⟨first, meansFirst, remains, same⟩ := inFirst _ stopsFirst
  rw [afterChoice_of_no_comma noComma] at remains same
  obtain ⟨second, meansSecond, resultSecond⟩ := inSecond rest stops
  refine ⟨_, meansTest.conditional (meansFirst.congr same) meansSecond, ?_⟩
  rw [List.append_assoc, List.cons_append, List.append_assoc, List.cons_append,
    readConditional_result, resultTest, stopped]
  simp only [isMark, if_true]
  generalize (readComma (between ++ colon :: (after ++ rest))).result = result at remains ⊢
  obtain ⟨tree, left⟩ := result
  cases remains
  simp only [isColon, if_true, resultSecond]

theorem reads_sequence {comma : Token} {before after : List Token}
    (isComma : comma.isPunctuator [','] = true) (inFirst : ReadsSequence f before)
    (inSecond : ReadsChoice g after) :
    ReadsSequence (.sequence f g) (before ++ comma :: after) := by
  intro rest stops
  have stopsFirst : NoChoice (comma :: (after ++ rest)) := by
    refine ⟨noTighter_of_other isComma (by decide), ?_⟩
    rintro _ ⟨⟩
    rw [Token.isPunctuator_of_isPunctuator isComma]
    rfl
  obtain ⟨first, meansFirst, remains, same⟩ := inFirst _ stopsFirst
  obtain ⟨second, meansSecond, remainsSecond, sameSecond⟩ := inSecond.sequence rest stops
  refine ⟨.comma first second, meansFirst.comma meansSecond, ?_⟩
  rw [List.append_assoc, List.cons_append]
  simp only [afterChoice, isComma, if_true] at remains same
  cases rest with
  | nil =>
      refine ⟨remains.trans remainsSecond, fun skipped => ?_⟩
      rw [same]
      exact eval_comma_congr (sameSecond skipped)
  | cons token rest =>
      by_cases more : token.isPunctuator [','] = true
      · simp only [afterChoice, more, if_true] at remainsSecond sameSecond ⊢
        refine ⟨remains.trans remainsSecond, fun skipped => ?_⟩
        rw [same, ← eval_comma_comma]
        exact eval_comma_congr (sameSecond skipped)
      · simp only [afterChoice, more, Bool.false_eq_true, if_false] at remainsSecond sameSecond ⊢
        refine ⟨remains.trans remainsSecond, fun skipped => ?_⟩
        rw [same]
        exact eval_comma_congr (sameSecond skipped)

/-- Every writing of a formula is read as a tree that means the formula. -/
theorem reads_of_prints {level : Nat} (prints : Prints level f tokens) : Reads level f tokens := by
  induction prints with
  | constant spells => exact (reads_constant spells).reads (by decide) (Nat.zero_le _)
  | named isName ordinary => exact (reads_named isName ordinary).reads (by decide) (Nat.zero_le _)
  | parentheses opens closes inner ih =>
      exact (reads_parentheses opens closes ih).reads (by decide) (Nat.zero_le _)
  | unary isSymbol inner ih => exact (reads_unary isSymbol ih).reads (by decide) (Nat.zero_le _)
  | @binary _ op _ _ _ _ _ allowed isSymbol inLeft inRight ihLeft ihRight =>
      rw [op.rank_eq_level] at allowed ihLeft ihRight
      have tight : op.level < choiceLevel := by cases op <;> decide
      rw [Reads, if_pos tight] at ihLeft
      rw [Reads, if_pos (Nat.lt_of_le_of_lt (Nat.sub_le _ _) tight)] at ihRight
      exact (reads_binary isSymbol ihLeft ihRight).reads tight allowed
  | choice allowed isMark isColon inTest inFirst inSecond ihTest ihFirst ihSecond =>
      exact (reads_choice isMark isColon ihTest ihFirst ihSecond).reads allowed
  | @sequence level _ _ _ _ _ allowed isComma inFirst inSecond ihFirst ihSecond =>
      have whole : Reads sequenceLevel _ _ := reads_sequence isComma ihFirst ihSecond
      rw [sequenceLevel] at allowed
      rw [Reads, if_neg (by rw [choiceLevel]; omega), if_neg (by rw [choiceLevel]; omega)]
      exact whole

/-- The tree of a writing of a formula means the formula. -/
theorem means_of_prints (prints : Prints sequenceLevel f tokens) : Means (read tokens) f tokens := by
  have reads : ReadsSequence f tokens := reads_of_prints prints
  have nothing : NoChoice [] := by
    constructor
    · rintro _ ⟨⟩
    · rintro _ ⟨⟩
  obtain ⟨e, means, remains, same⟩ := reads [] nothing
  rw [List.append_nil] at remains same
  apply means.congr
  intro skipped
  rw [read_eq]
  generalize (readComma tokens).result = result at remains same
  obtain ⟨tree, rest⟩ := result
  cases remains
  exact same skipped

end CPreprocessor.Expression

namespace CPreprocessor

open Expression Formula

/-- A word does not end a file. -/
theorem Token.IsWord.isEnd_eq_false {token : Token} (word : token.IsWord) :
    token.isEnd = false := by
  rcases word with kind | ⟨named, -⟩ | ⟨i, kind, -⟩
  · simp [isEnd, kind]
  · simp only [isName, Bool.or_eq_true, beq_iff_eq] at named
    rcases named with kind | kind <;> simp [isEnd, kind]
  · simp [isEnd, kind]

theorem Token.isWord_of_isPunctuator {token : Token} {symbol : Text}
    (isSymbol : token.isPunctuator symbol = true) : token.IsWord :=
  .inl (Token.isPunctuator_iff.mp isSymbol).1

namespace Formula.Prints

variable {level : Nat} {f : Formula} {tokens : List Token}

/-- A writing has a token. -/
theorem ne_nil (prints : Prints level f tokens) : tokens ≠ [] := by
  cases prints <;> simp

/-- The tokens of a writing are words. -/
theorem isWord_of_mem (prints : Prints level f tokens) : ∀ token ∈ tokens, token.IsWord := by
  induction prints with
  | constant spells => simpa using .inr (.inr ⟨_, spells⟩)
  | named isName ordinary => simpa using .inr (.inl ⟨isName, ordinary⟩)
  | parentheses opens closes inner ih =>
      have first := Token.isWord_of_isPunctuator opens
      have last := Token.isWord_of_isPunctuator closes
      grind
  | unary isSymbol inner ih =>
      have first := Token.isWord_of_isPunctuator isSymbol
      grind
  | binary allowed isSymbol inLeft inRight ihLeft ihRight =>
      have operator := Token.isWord_of_isPunctuator isSymbol
      grind
  | choice allowed isMark isColon inTest inFirst inSecond ihTest ihFirst ihSecond =>
      have mark := Token.isWord_of_isPunctuator isMark
      have colon := Token.isWord_of_isPunctuator isColon
      grind
  | sequence allowed isComma inFirst inSecond ihFirst ihSecond =>
      have comma := Token.isWord_of_isPunctuator isComma
      grind

end Formula.Prints

/-- The tokens of a condition are read and evaluated as they are. -/
theorem evaluateCondition_of_words {tokens : List Token} (words : ∀ token ∈ tokens, token.IsWord)
    (nonempty : tokens ≠ []) (directive : Token) (journal : Journal) :
    evaluateCondition tokens directive journal =
      match (read tokens).eval false with
      | .ok v => (some v, journal)
      | .error failure =>
        let place := failure.token.getD (tokens.getLast nonempty)
        (none, journal.report place failure.code failure.detail) := by
  have whole : tokens.filter (!·.isEnd) = tokens :=
    List.filter_eq_self.mpr fun token present => by simp [(words token present).isEnd_eq_false]
  rw [evaluateCondition]
  cases tokens with
  | nil => exact (nonempty rfl).elim
  | cons first more =>
      split
      · rename_i empty
        rw [whole] at empty
        cases empty
      · rename_i same
        rw [whole] at same
        cases same
        rfl

/-- Conditions are evaluated as the language says. A writing of a formula that divides by zero is
reported at an operator that divides, and has no value; a writing of any other formula has the value and
the type of the formula; and words that are no writing of a formula have no value. -/
theorem evaluateCondition_correct (tokens : List Token) (words : ∀ token ∈ tokens, token.IsWord)
    (directive : Token) (journal : Journal) :
    (∀ f, Prints sequenceLevel f tokens →
      (f.DividesByZero → ∃ token ∈ tokens, token.IsDivision ∧
        evaluateCondition tokens directive journal =
          (none, journal.report token .divisionByZero [])) ∧
      (¬f.DividesByZero → ∃ n, f.value = some n ∧
        evaluateCondition tokens directive journal =
          (some ⟨BitVec.ofInt 64 n, f.unsigned⟩, journal))) ∧
    ((∀ f, ¬Prints sequenceLevel f tokens) →
      (evaluateCondition tokens directive journal).1 = none) := by
  constructor
  · intro f prints
    have counted := (means_of_prints prints).counted
    rw [← value_eq_none_iff, evaluateCondition_of_words words prints.ne_nil]
    constructor
    · intro divides
      obtain ⟨token, member, isDivision, failed⟩ := (outcome_of_none divides).mp counted
      exact ⟨token, member, isDivision, by rw [failed]; rfl⟩
    · intro computes
      obtain ⟨n, value⟩ := Option.ne_none_iff_exists'.mp computes
      obtain ⟨v, evaluated, rfl, type⟩ := (outcome_of_some value).mp counted
      refine ⟨v.toInt, value, ?_⟩
      rw [evaluated, Value.ofInt_toInt, ← type]
  · intro unwritten
    by_cases empty : tokens = []
    · subst empty
      rfl
    · rw [evaluateCondition_of_words words empty]
      cases evaluated : (read tokens).eval false with
      | error failure => rfl
      | ok v =>
          obtain ⟨f, prints⟩ := exists_prints_of_read words (wellFormed_of_eval evaluated)
          exact (unwritten f prints).elim

/-- The constant `1u`. -/
def oneUnsigned : IntegerConstant where
  radix := .decimal
  mark := []
  first := '1'
  others := []
  suffix := ['u']
  mark_mem := by decide
  isDigit_of_mem := List.all_eq_true.mp (by decide)
  mayStart_first := by decide
  suffix_mem := by decide
  number_lt := by decide

/-- In `1u - true - 1u` the differences are taken from the left and have no sign. -/
theorem evaluateCondition_difference :
    let one : Token := { kind := .number, lexeme := ['1', 'u'] }
    let name : Token := { kind := .keyword, lexeme := "true".toList }
    let minus : Token := { kind := .punctuator, lexeme := ['-'] }
    let tokens := [one, minus, name, minus, one]
    (∀ token ∈ tokens, token.IsWord) ∧
      evaluateCondition tokens minus {} = (some ⟨BitVec.ofInt 64 (2 ^ 64 - 1), true⟩, {}) := by
  intro one name minus tokens
  have spells : oneUnsigned.Spells one := ⟨rfl, .next (by decide) (.last (by decide))⟩
  have printsOne {level : Nat} : Prints level (.constant oneUnsigned) [one] := .constant spells
  have printsName {level : Nat} : Prints level (.named name.lexeme (by decide)) [name] :=
    .named rfl (by decide)
  let inner : Formula := .binary .sub (.constant oneUnsigned) (.named name.lexeme (by decide))
  have printsInner : Prints 2 inner ([one] ++ minus :: [name]) :=
    .binary (by decide) rfl printsOne printsName
  let whole : Formula := .binary .sub inner (.constant oneUnsigned)
  have prints : Prints sequenceLevel whole (([one] ++ minus :: [name]) ++ minus :: [one]) :=
    .binary (by decide) rfl printsInner printsOne
  have words : ∀ token ∈ tokens, token.IsWord := prints.isWord_of_mem
  have value : whole.value = some (2 ^ 64 - 1) := by decide
  have computes : ¬whole.DividesByZero := by
    rw [← value_eq_none_iff, value]
    exact nofun
  obtain ⟨n, known, evaluated⟩ :=
    ((evaluateCondition_correct tokens words minus {}).1 whole prints).2 computes
  rw [value, Option.some.injEq] at known
  exact ⟨words, known ▸ evaluated⟩

end CPreprocessor
