/-
# What is read is a formula

The reader gives a tree for every list of tokens. If the tree has no invalid leaf,
the tokens that were read are a writing of some formula (`exists_prints_of_read`).
The levels of the reader are treated in the order in which they call each other;
each of them may rely on all levels for shorter lists.
-/
import CPreprocessor.Proofs.Condition.Reading

namespace CPreprocessor.Expression

open Formula

/-- The tree has no invalid leaf. -/
def WellFormed : Expression → Prop
  | value _ => True
  | invalid _ => False
  | unary _ operand => operand.WellFormed
  | binary _ _ left right => left.WellFormed ∧ right.WellFormed
  | conditional test first second => test.WellFormed ∧ first.WellFormed ∧ second.WellFormed
  | comma first second => first.WellFormed ∧ second.WellFormed

theorem not_wellFormed_before (e : Expression) (code : Code) (token : Option Token)
    (detail : Text) : ¬(e.before code token detail).WellFormed :=
  fun wellFormed => wellFormed.2

theorem ok_of_bind {α β : Type} {x : Except Failure α} {f : α → Except Failure β} {b : β}
    (ok : x >>= f = .ok b) : ∃ a, x = .ok a ∧ f a = .ok b := by
  cases x with
  | error failure => cases ok
  | ok a => exact ⟨a, rfl, ok⟩

/-- An invalid leaf fails, wherever it stands. -/
theorem wellFormed_of_eval {e : Expression} {skipped : Bool} {v : Value}
    (ok : e.eval skipped = .ok v) : e.WellFormed := by
  induction e generalizing skipped v with
  | value v => trivial
  | invalid failure => cases ok
  | unary op operand ih =>
      obtain ⟨a, evaluated, -⟩ := ok_of_bind ok
      exact ih evaluated
  | binary op token left right ihLeft ihRight =>
      obtain ⟨a, evaluatedLeft, ok⟩ := ok_of_bind ok
      obtain ⟨b, evaluatedRight, -⟩ := ok_of_bind ok
      exact ⟨ihLeft evaluatedLeft, ihRight evaluatedRight⟩
  | conditional test first second ihTest ihFirst ihSecond =>
      obtain ⟨c, evaluatedTest, ok⟩ := ok_of_bind ok
      obtain ⟨a, evaluatedFirst, ok⟩ := ok_of_bind ok
      obtain ⟨b, evaluatedSecond, -⟩ := ok_of_bind ok
      exact ⟨ihTest evaluatedTest, ihFirst evaluatedFirst, ihSecond evaluatedSecond⟩
  | comma first second ihFirst ihSecond =>
      obtain ⟨a, evaluatedFirst, ok⟩ := ok_of_bind ok
      exact ⟨ihFirst evaluatedFirst, ihSecond ok⟩

/-- If the tree is well formed, what was read for it is a writing of a formula. -/
def Accepts (level : Nat) (tokens : List Token) (result : Expression × List Token) : Prop :=
  result.1.WellFormed → ∃ f before, tokens = before ++ result.2 ∧ Prints level f before

theorem Accepts.mono {level looser : Nat} {tokens : List Token}
    {result : Expression × List Token} (accepts : Accepts level tokens result)
    (allowed : level ≤ looser) : Accepts looser tokens result := by
  intro wellFormed
  obtain ⟨f, before, split, prints⟩ := accepts wellFormed
  exact ⟨f, before, split, prints.mono allowed⟩

/-- Whatever any level reads from the tokens is a writing of a formula. -/
structure AllAccept (tokens : List Token) : Prop where
  unary : Accepts 0 tokens (readUnary tokens).result
  binary : ∀ level ≤ loosest, Accepts level tokens (readBinary level tokens).result
  choice : Accepts choiceLevel tokens (readConditional tokens).result
  sequence : Accepts sequenceLevel tokens (readComma tokens).result

/-- The tokens are words, and what is read from shorter lists of words are formulas. -/
structure Premises (tokens : List Token) : Prop where
  words : ∀ token ∈ tokens, token.IsWord
  shorter : ∀ later : List Token, later.length < tokens.length →
    (∀ token ∈ later, token.IsWord) → AllAccept later

/-- A leaf that is well formed is an integer or a name. -/
theorem prints_leaf {token : Token} (word : token.IsWord) (wellFormed : (leaf token).WellFormed) :
    ∃ f, Prints 0 f [token] := by
  rcases word with kind | ⟨isName, ordinary⟩ | ⟨i, spells⟩
  · obtain ⟨failure, invalid⟩ := leaf_of_isPunctuator kind
    rw [invalid] at wellFormed
    exact wellFormed.elim
  · exact ⟨_, .named isName ordinary⟩
  · exact ⟨_, .constant spells⟩

theorem accepts_primary {token : Token} {after : List Token} (premises : Premises (token :: after)) :
    Accepts 0 (token :: after) (readPrimary token after).result := by
  rw [readPrimary_result]
  have later := premises.shorter after (Nat.lt_succ_self _)
    fun t present => premises.words t (List.mem_cons_of_mem _ present)
  by_cases opens : token.isOpen = true
  · rw [if_pos opens]
    have inside := later.sequence
    generalize (readComma after).result = result at inside
    obtain ⟨inner, rest⟩ := result
    cases rest with
    | nil => exact fun wellFormed => (not_wellFormed_before _ _ _ _ wellFormed).elim
    | cons closing rest =>
        by_cases closes : closing.isClose = true
        · simp only [closes, if_true]
          intro wellFormed
          obtain ⟨f, before, split, prints⟩ := inside wellFormed
          refine ⟨f, token :: (before ++ [closing]), ?_, .parentheses opens closes prints⟩
          simp [split]
        · simp only [closes, Bool.false_eq_true, if_false]
          exact fun wellFormed => (not_wellFormed_before _ _ _ _ wellFormed).elim
  · rw [if_neg opens]
    intro wellFormed
    obtain ⟨f, prints⟩ := prints_leaf (premises.words token List.mem_cons_self) wellFormed
    exact ⟨f, [token], rfl, prints⟩

theorem accepts_unary {tokens : List Token} (premises : Premises tokens) :
    Accepts 0 tokens (readUnary tokens).result := by
  cases tokens with
  | nil =>
      rw [readUnary_nil]
      exact False.elim
  | cons token after =>
      rw [readUnary_cons]
      cases found : unaryOp? token with
      | none => exact accepts_primary premises
      | some op =>
          intro wellFormed
          have later := premises.shorter after (Nat.lt_succ_self _)
            fun t present => premises.words t (List.mem_cons_of_mem _ present)
          obtain ⟨f, before, split, prints⟩ := later.unary wellFormed
          have isSymbol := symbol_of_unaryOp? (premises.words token List.mem_cons_self) found
          exact ⟨.unary op f, token :: before, by rw [List.cons_append, ← split],
            .unary isSymbol prints⟩

/-! ## Operators of one level -/

/-- An operator of a level, if the token is one. -/
theorem operator_of_filter {token : Token} {tighter : Nat} {op : BinaryOp}
    (found : (binaryOp? token).filter (·.level = tighter + 1) = some op) :
    binaryOp? token = some op ∧ op.level = tighter + 1 := by
  simpa [Option.filter_eq_some_iff] using found

theorem length_readBinary_le (level : Nat) (tokens : List Token) :
    (readBinary level tokens).result.2.length ≤ tokens.length :=
  (readBinary level tokens).shorter

/-- What operators are added to is a part of what comes out. -/
theorem wellFormed_of_readOperators {tighter : Nat} {left : Expression} {tokens : List Token}
    (wellFormed : (readOperators tighter left tokens).result.1.WellFormed) : left.WellFormed := by
  induction size : tokens.length using Nat.strongRecOn generalizing left tokens with
  | ind n ih =>
      cases tokens with
      | nil => rwa [readOperators_nil] at wellFormed
      | cons token after =>
          rw [readOperators_cons] at wellFormed
          cases found : (binaryOp? token).filter (·.level = tighter + 1) with
          | none => rwa [found] at wellFormed
          | some op =>
              rw [found] at wellFormed
              have bound := length_readBinary_le tighter after
              rw [List.length_cons] at size
              exact (ih _ (by omega) wellFormed rfl).1

/-- The operators of a level continue a writing of a formula of that level. -/
theorem accepts_operators {tighter : Nat} {whole tokens : List Token} (premises : Premises whole)
    (allowed : tighter < loosest) (bound : tokens.length ≤ whole.length)
    (words : ∀ token ∈ tokens, token.IsWord) {left : Expression} {f : Formula}
    {before : List Token} (prints : Prints (tighter + 1) f before)
    (wellFormed : (readOperators tighter left tokens).result.1.WellFormed) :
    ∃ g more, tokens = more ++ (readOperators tighter left tokens).result.2 ∧
      Prints (tighter + 1) g (before ++ more) := by
  induction size : tokens.length using Nat.strongRecOn
    generalizing left f before tokens with
  | ind n ih =>
      cases tokens with
      | nil =>
          rw [readOperators_nil]
          exact ⟨f, [], rfl, by rwa [List.append_nil]⟩
      | cons token after =>
          rw [readOperators_cons] at wellFormed ⊢
          cases found : (binaryOp? token).filter (·.level = tighter + 1) with
          | none => exact ⟨f, [], rfl, by rwa [List.append_nil]⟩
          | some op =>
              simp only [found] at wellFormed ⊢
              obtain ⟨isOperator, level⟩ := operator_of_filter found
              rw [← op.rank_eq_level] at level
              have isSymbol := symbol_of_binaryOp? (words token List.mem_cons_self) isOperator
              have wordsAfter : ∀ t ∈ after, t.IsWord :=
                fun t present => words t (List.mem_cons_of_mem _ present)
              rw [List.length_cons] at bound size
              have later := premises.shorter after (by omega) wordsAfter
              have right := (wellFormed_of_readOperators wellFormed).2
              obtain ⟨g, between, split, printsRight⟩ :=
                later.binary tighter (Nat.le_of_lt allowed) right
              have extended : Prints (tighter + 1) (.binary op f g) (before ++ token :: between) :=
                .binary (Nat.le_of_eq level) isSymbol (level ▸ prints)
                  (by rw [level]; exact printsRight)
              have shorter := length_readBinary_le tighter after
              obtain ⟨h, more, splitMore, printsMore⟩ :=
                ih (readBinary tighter after).result.2.length (by omega) (by omega)
                  (fun t present => wordsAfter t (split ▸ List.mem_append_right _ present))
                  extended wellFormed rfl
              refine ⟨h, token :: (between ++ more), ?_, by simpa using printsMore⟩
              rw [List.cons_append, List.append_assoc, ← splitMore, ← split]

theorem accepts_binary {tokens : List Token} (premises : Premises tokens) (level : Nat)
    (allowed : level ≤ loosest) : Accepts level tokens (readBinary level tokens).result := by
  induction level with
  | zero =>
      rw [readBinary_zero]
      exact accepts_unary premises
  | succ tighter ih =>
      rw [readBinary_succ]
      intro wellFormed
      have first := ih (Nat.le_of_succ_le allowed) (wellFormed_of_readOperators wellFormed)
      obtain ⟨f, before, split, prints⟩ := first
      obtain ⟨g, more, splitMore, printsMore⟩ :=
        accepts_operators premises allowed (length_readBinary_le tighter tokens)
          (fun t present => premises.words t (split ▸ List.mem_append_right _ present))
          (prints.mono (Nat.le_succ _)) wellFormed
      refine ⟨g, before ++ more, ?_, printsMore⟩
      rw [List.append_assoc, ← splitMore, ← split]

/-! ## Choices and sequences -/

/-- What is left after the first tokens are words, and fewer. -/
theorem Premises.rest {tokens before after : List Token} {token : Token}
    (premises : Premises tokens) (split : tokens = before ++ token :: after) :
    after.length < tokens.length ∧ ∀ t ∈ after, t.IsWord := by
  subst split
  refine ⟨by rw [List.length_append, List.length_cons]; omega, fun t present => ?_⟩
  exact premises.words t (List.mem_append_right _ (List.mem_cons_of_mem _ present))

/-- A choice is read as its three parts are. -/
theorem accepts_choice {tokens : List Token} (premises : Premises tokens) :
    Accepts choiceLevel tokens (readConditional tokens).result := by
  rw [readConditional_result]
  have readTest := accepts_binary premises loosest (Nat.le_refl _)
  generalize (readBinary loosest tokens).result = result at readTest
  obtain ⟨test, rest⟩ := result
  cases rest with
  | nil => exact readTest.mono (by decide)
  | cons mark after =>
      by_cases isMark : mark.isPunctuator ['?'] = true
      · simp only [isMark, if_true]
        cases first : (readComma after).result with
        | mk tree rest =>
            cases rest with
            | nil =>
                intro wellFormed
                exact (not_wellFormed_before _ _ _ _ wellFormed.2.1).elim
            | cons colon last =>
                by_cases isColon : colon.isPunctuator [':'] = true
                · simp only [isColon, if_true]
                  rintro ⟨wellTest, wellFirst, wellSecond⟩
                  obtain ⟨f, before, split, printsTest⟩ := readTest wellTest
                  have remaining := premises.rest split
                  have later := premises.shorter after remaining.1 remaining.2
                  have readFirst := later.sequence
                  rw [first] at readFirst
                  obtain ⟨g, between, splitFirst, printsFirst⟩ := readFirst wellFirst
                  have splitWhole : tokens = (before ++ mark :: between) ++ colon :: last := by
                    rw [split, splitFirst, List.append_assoc, List.cons_append]
                  have remaining := premises.rest splitWhole
                  have last := premises.shorter last remaining.1 remaining.2
                  obtain ⟨h, end_, splitSecond, printsSecond⟩ := last.choice wellSecond
                  refine ⟨.choice f g h, before ++ mark :: (between ++ colon :: end_), ?_,
                    .choice (Nat.le_refl _) isMark isColon printsTest printsFirst printsSecond⟩
                  rw [splitWhole]
                  simp only [List.append_assoc, List.cons_append, ← splitSecond]
                · simp only [isColon, Bool.false_eq_true, if_false]
                  intro wellFormed
                  exact (not_wellFormed_before _ _ _ _ wellFormed.2.1).elim
      · simp only [isMark, Bool.false_eq_true, if_false]
        exact readTest.mono (by decide)

/-- A writing that is put before a sequence makes a longer sequence. -/
theorem exists_prints_sequence {level : Nat} {f g : Formula} {comma : Token}
    {before after : List Token} (isComma : comma.isPunctuator [','] = true)
    (printsFirst : Prints choiceLevel f before) (prints : Prints level g after)
    (loose : level = sequenceLevel) :
    ∃ h, Prints sequenceLevel h (before ++ comma :: after) := by
  have whole {g : Formula} {after : List Token} (prints : Prints choiceLevel g after) :
      ∃ h, Prints sequenceLevel h (before ++ comma :: after) :=
    ⟨_, .sequence (Nat.le_refl _) isComma (printsFirst.mono (by decide)) prints⟩
  induction prints with
  | constant spells => exact whole (.constant spells)
  | named isName ordinary => exact whole (.named isName ordinary)
  | parentheses opens closes inner ih => exact whole (.parentheses opens closes inner)
  | unary isSymbol inner ih => exact whole (.unary isSymbol inner)
  | @binary _ op _ _ _ _ _ allowed isSymbol inLeft inRight ihLeft ihRight =>
      exact whole (.binary (by cases op <;> decide) isSymbol inLeft inRight)
  | choice allowed isMark isColon inTest inFirst inSecond ihTest ihFirst ihSecond =>
      exact whole (.choice (Nat.le_refl _) isMark isColon inTest inFirst inSecond)
  | @sequence _ _ second _ _ _ _ isInner _ inSecond ihFirst _ =>
      -- The comma in front binds first, because commas bind to the left.
      obtain ⟨h, prints⟩ := ihFirst rfl
      refine ⟨.sequence h second, ?_⟩
      rw [← List.cons_append, ← List.append_assoc]
      exact .sequence (Nat.le_refl _) isInner prints inSecond

theorem accepts_sequence {tokens : List Token} (premises : Premises tokens) :
    Accepts sequenceLevel tokens (readComma tokens).result := by
  rw [readComma_result]
  have readFirst := accepts_choice premises
  generalize (readConditional tokens).result = result at readFirst
  obtain ⟨tree, rest⟩ := result
  cases rest with
  | nil => exact readFirst.mono (by decide)
  | cons comma after =>
      by_cases isComma : comma.isPunctuator [','] = true
      · simp only [isComma, if_true]
        rintro ⟨wellFirst, wellSecond⟩
        obtain ⟨f, before, split, prints⟩ := readFirst wellFirst
        have remaining := premises.rest split
        have later := premises.shorter after remaining.1 remaining.2
        obtain ⟨g, more, splitMore, printsMore⟩ := later.sequence wellSecond
        obtain ⟨h, printsWhole⟩ := exists_prints_sequence isComma prints printsMore rfl
        refine ⟨h, before ++ comma :: more, ?_, printsWhole⟩
        rw [List.append_assoc, List.cons_append, ← splitMore, ← split]
      · simp only [isComma, Bool.false_eq_true, if_false]
        exact readFirst.mono (by decide)

/-- Every level reads writings of formulas only. -/
theorem allAccept (tokens : List Token) (words : ∀ token ∈ tokens, token.IsWord) :
    AllAccept tokens := by
  induction size : tokens.length using Nat.strongRecOn generalizing tokens with
  | ind n ih =>
      have premises : Premises tokens :=
        ⟨words, fun later shorter words => ih _ (size ▸ shorter) later words rfl⟩
      exact ⟨accepts_unary premises, accepts_binary premises, accepts_choice premises,
        accepts_sequence premises⟩

/-- Words that are read as a tree without an invalid leaf are a writing of a formula. -/
theorem exists_prints_of_read {tokens : List Token} (words : ∀ token ∈ tokens, token.IsWord)
    (wellFormed : (read tokens).WellFormed) : ∃ f, Prints sequenceLevel f tokens := by
  rw [read_eq] at wellFormed
  have accepts := (allAccept tokens words).sequence
  generalize (readComma tokens).result = result at wellFormed accepts
  obtain ⟨tree, rest⟩ := result
  cases rest with
  | nil =>
      obtain ⟨f, before, split, prints⟩ := accepts wellFormed
      rw [List.append_nil] at split
      exact ⟨f, split ▸ prints⟩
  | cons token rest => exact (not_wellFormed_before _ _ _ _ wellFormed).elim

end CPreprocessor.Expression
