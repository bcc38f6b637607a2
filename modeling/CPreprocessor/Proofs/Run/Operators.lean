/-
# Malformed pragma operators

A pragma operator without a parenthesized string literal is given as it is, and the tokens
that were expanded for its operand are put back. So they are expanded again, before tokens
that were not the same the first time. They stay as they are (`OperandStays`) unless a
directive that is read with the operand changes the macros, or a parenthesis that a macro
has made follows the name of a function-like macro (`OperandIsSteady`). Where they stay, the
rest of the run is as if an ordinary identifier stood in the place of the operator
(`given_malformed_operator`): the run that has put tokens back and the one that goes on at
once find the same tokens, since the second one is to expand what the first one has put
back (`Ahead`).
-/
import CPreprocessor.Proofs.Guard.Include
import CPreprocessor.Proofs.Run.Inlining
import CPreprocessor.Proofs.Run.Journals
import CPreprocessor.Proofs.Run.Playing
import CPreprocessor.Proofs.Run.Shape

namespace CPreprocessor

/-! ## Tokens that stay as they are -/

namespace Head

/-- A token stays as it is before these tokens: whatever macro it calls is not called with them, and no
further token is needed to tell. -/
def Stays (table : MacroTable) (token : Token) (rest : List Token) : Prop :=
  ∀ m, called? table token = some m → Decides m rest
    ∧ (ofMacro m token rest = .plain token rest
      ∨ ∃ code, ofMacro m token rest = .rejected code token rest)

/-- All of the tokens stay as they are before `rest`. -/
def AllStay (table : MacroTable) (rest : List Token) : List Token → Prop
  | [] => True
  | token :: tokens => Stays table token (tokens ++ rest) ∧ AllStay table rest tokens

variable {table : MacroTable} {token : Token} {m : Macro} {rest : List Token}

theorem stays_of_none (plain : called? table token = none) : Stays table token rest := by
  intro m called
  rw [plain] at called
  cases called

theorem called?_of_not_isName (symbol : token.isName = false) : called? table token = none := by
  simp [called?, MacroTable.findToken?, symbol]

theorem called?_of_isOpen (isOpen : token.isOpen = true) : called? table token = none := by
  refine called?_of_not_isName ?_
  have kind : token.kind = .punctuator := (Token.isPunctuator_iff.mp isOpen).1
  simp [Token.isName, kind]

/-- Only the name of a function-like macro stays although it calls the macro. -/
theorem isFunctionLike_of_ofMacro
    (stays : ofMacro m token rest = .plain token rest
      ∨ ∃ code, ofMacro m token rest = .rejected code token rest) : m.isFunctionLike = true := by
  cases form : m.replacement with
  | function p body => rw [Macro.isFunctionLike, form]
  | _ => simp [ofMacro, form] at stays

/-- The name of a function-like macro stays as it is before what is no parenthesis. -/
theorem ofMacro_of_not_isOpen (isFunctionLike : m.isFunctionLike = true) {opening : Token}
    (closed : opening.isOpen = false) (inner : List Token) :
    Decides m (opening :: inner)
      ∧ ofMacro m token (opening :: inner) = .plain token (opening :: inner) := by
  refine ⟨fun _ => ⟨opening, inner, rfl, fun isOpen => ?_⟩, ?_⟩
  · rw [closed] at isOpen
    cases isOpen
  · cases form : m.replacement with
    | function p body => simp only [ofMacro, form, closed, Bool.false_eq_true, if_false]
    | _ => simp [Macro.isFunctionLike, form] at isFunctionLike

end Head

namespace Preprocessor

variable {setup : Setup}

/-! ## Tokens that are put back -/

/-- A pending token that stays as it is, is taken, and no more. -/
theorem expandNext_of_stays {p : Preprocessor} {r : Reader} {token : Token} {rest : List Token}
    (stays : Head.Stays r.session.macros token rest) (same : p.ReadsAs ⟨r, token :: rest⟩)
    (lenient : setup.config.failFast = false) :
    (p.expandNext setup).1 = token ∧ (p.expandNext setup).2.ReadsAs ⟨r, rest⟩ := by
  have taken : take setup ⟨r, token :: rest⟩ = (token, ⟨r, rest⟩) := rfl
  obtain ⟨gives, after⟩ := same.expandNext lenient
  cases called : Head.called? r.session.macros token with
  | none =>
    rw [expandNext_of_none taken called] at gives after
    exact ⟨gives, after⟩
  | some m =>
    obtain ⟨decided, form⟩ := stays m called
    have head : headOfMacro setup m token ⟨r, rest⟩ = (Head.ofMacro m token rest, r) :=
      headOfMacro_of_decides decided token
    rw [expandNext_of_some taken called, head] at gives after
    obtain plain | ⟨code, rejected⟩ := form
    · simp only [plain] at gives after
      exact ⟨gives, after⟩
    · simp only [rejected] at gives after
      exact ⟨gives, after.readers.of_report_right, after.pending⟩

/-! ## Runs that are ahead -/

/-- The run expands these tokens, one after the other, and then it is the second run. -/
inductive ExpandsTo (setup : Setup) : Preprocessor → List Token → Preprocessor → Prop where
  | nothing (p : Preprocessor) : ExpandsTo setup p [] p
  | expanding {p q r : Preprocessor} {token : Token} {tokens : List Token}
      (expanded : p.expandNext setup = (token, q)) (later : ExpandsTo setup q tokens r) :
      ExpandsTo setup p (token :: tokens) r

/-- The first run has put back at most `n` tokens, which stay as they are, and the second one is to
expand them. Apart from reports, the runs have nothing else that is not the same. -/
inductive Ahead (setup : Setup) (n : Nat) (p q : Preprocessor) : Prop where
  | putBack {tokens : List Token} {z : Preprocessor} (few : tokens.length ≤ n)
      (expands : q.ExpandsTo setup tokens z)
      (stay : Head.AllStay z.reader.session.macros z.pending tokens)
      (same : p.ReadsAs (z.pushBack tokens)) : Ahead setup n p q

theorem ReadsAs.ahead {p q : Preprocessor} (same : p.ReadsAs q) (n : Nat) : Ahead setup n p q :=
  @Ahead.putBack setup n p q [] q (Nat.zero_le n) (.nothing q) trivial same

theorem Ahead.mono {n m : Nat} {p q : Preprocessor} (ahead : Ahead setup n p q) (more : n ≤ m) :
    Ahead setup m p q := by
  obtain ⟨few, expands, stay, same⟩ := ahead
  exact .putBack (few.trans more) expands stay same

theorem Ahead.readsAs {p q : Preprocessor} (ahead : Ahead setup 0 p q) : p.ReadsAs q := by
  obtain ⟨few, expands, stay, same⟩ := ahead
  cases expands with
  | nothing => exact same
  | expanding expanded later => cases few

section Lenient

variable (lenient : setup.config.failFast = false) {p q : Preprocessor}
include lenient

theorem isAborted_of_records {p q : Preprocessor} (records : p.reader.Records setup q.reader) :
    q.isAborted = p.isAborted := by
  obtain same | ⟨-, -, failFast, -⟩ := records.status
  · simp only [isAborted, same]
  · rw [lenient] at failFast
    cases failFast

theorem ExpandsTo.isAborted {tokens : List Token} (expands : p.ExpandsTo setup tokens q) :
    q.isAborted = p.isAborted := by
  induction expands with
  | nothing p => rfl
  | @expanding p q r token tokens expanded later ih =>
    have records := records_expandNext setup p
    rw [expanded] at records
    exact ih.trans (isAborted_of_records lenient records)

theorem ReadsAs.isAborted (same : p.ReadsAs q) : p.isAborted = q.isAborted :=
  (Reader.twins_readsAs lenient).isAborted same.twins

/-- Both runs have ended, or neither has. -/
theorem Ahead.isAborted {n : Nat} (ahead : Ahead setup n p q) : p.isAborted = q.isAborted := by
  obtain ⟨few, expands, stay, same⟩ := ahead
  exact (same.isAborted lenient).trans (expands.isAborted lenient)

/-- The runs expand the same token, and then fewer are left that have been put back. -/
theorem Ahead.expandNext {n : Nat} (ahead : Ahead setup (n + 1) p q) :
    (p.expandNext setup).1 = (q.expandNext setup).1
      ∧ Ahead setup n (p.expandNext setup).2 (q.expandNext setup).2 := by
  obtain ⟨few, expands, stay, same⟩ := ahead
  cases expands with
  | nothing =>
    obtain ⟨token, after⟩ := same.expandNext lenient
    exact ⟨token, after.ahead n⟩
  | expanding expanded later =>
    obtain ⟨token, after⟩ := expandNext_of_stays stay.1 same lenient
    rw [expanded]
    exact ⟨token, .putBack (Nat.le_of_succ_le_succ few) later stay.2 after⟩

/-- What comes of the operand of a pragma operator is the same in both runs. -/
theorem ReadsAs.afterOperand (keyword : Token) {found found' : Option PragmaOperand × Preprocessor}
    (operands : found.1 = found'.1) (same : found.2.ReadsAs found'.2) :
    (afterOperand setup keyword found).1 = (afterOperand setup keyword found').1
      ∧ (afterOperand setup keyword found).2.ReadsAs (afterOperand setup keyword found').2 := by
  obtain ⟨operand, q⟩ := found
  obtain ⟨_, q'⟩ := found'
  obtain rfl := operands
  cases operand with
  | none => exact ⟨rfl, same⟩
  | some operand =>
    have twins := Reader.twins_readsAs lenient
    have applied : (q.applyPragma setup keyword operand.literal).1
          = (q'.applyPragma setup keyword operand.literal).1
        ∧ (q.applyPragma setup keyword operand.literal).2.Twins .unreported Reader.ReadsAs
          (q'.applyPragma setup keyword operand.literal).2 :=
      twins.applyPragma rfl rfl (fun args _ => View.isClear_unreported.speaks args) same.twins
    simp only [Preprocessor.afterOperand]
    generalize q.applyPragma setup keyword operand.literal = done at applied ⊢
    generalize q'.applyPragma setup keyword operand.literal = done' at applied ⊢
    obtain ⟨passes, x⟩ := done
    obtain ⟨_, x'⟩ := done'
    obtain ⟨rfl, after⟩ := applied
    cases passes with
    | false => exact (of_twins after).next lenient
    | true =>
      have words := View.isClear_unreported.speaks
        ([operand.opening, operand.literal, operand.close].map verbatim)
      exact of_twinTokens (twins.give rfl ((twins.checkAbort after).pushBack rfl words))

/-- The operands are the same if the runs are once the first parenthesis has been expanded. -/
theorem Ahead.readOperand (keyword : Token) (ahead : Ahead setup 1 p q) :
    (p.readOperand setup keyword).1 = (q.readOperand setup keyword).1
      ∧ (p.readOperand setup keyword).2.ReadsAs (q.readOperand setup keyword).2 := by
  obtain ⟨opening, later⟩ := ahead.expandNext lenient
  have after := later.readsAs
  cases isOpen : (q.expandNext setup).1.isOpen with
  | false =>
    rw [readOperand_of_not_isOpen keyword isOpen,
      readOperand_of_not_isOpen keyword (opening ▸ isOpen), opening]
    exact ⟨rfl, after.pushBack _⟩
  | true =>
    obtain ⟨literal, after⟩ := after.expandNext lenient
    obtain ⟨close, after⟩ := after.expandNext lenient
    rw [readOperand_of_isOpen keyword isOpen, readOperand_of_isOpen keyword (opening ▸ isOpen), opening,
      literal]
    unfold closeOperand
    rw [close]
    split
    · exact ⟨rfl, after⟩
    · exact ⟨rfl, (after.report _ _ _).pushBack _⟩

theorem next_of_plain_of_lenient (running : p.isAborted = false)
    (plain : startsPragma (p.expandNext setup).1 = false) : p.next setup = p.expandNext setup := by
  have goesOn : (p.expandNext setup).2.isAborted = false :=
    (isAborted_of_records lenient (records_expandNext setup p)).trans running
  rw [next_of_plain (by simp [running]) (by simp [plain]), checkAbort,
    Reader.checkAbort_of_lenient lenient, give, if_neg (by simp [goesOn])]

/-- A token that starts no pragma operator is given by both runs. -/
theorem Ahead.next_of_plain {n : Nat} (ahead : Ahead setup (n + 1) p q) (running : q.isAborted = false)
    (plain : startsPragma (q.expandNext setup).1 = false) :
    (p.next setup).1 = (q.next setup).1 ∧ Ahead setup n (p.next setup).2 (q.next setup).2 := by
  have running' := (ahead.isAborted lenient).trans running
  obtain ⟨token, after⟩ := ahead.expandNext lenient
  rw [next_of_plain_of_lenient lenient running' (token ▸ plain),
    next_of_plain_of_lenient lenient running plain]
  exact ⟨token, after⟩

/-- The runs give the same token. Where the second one comes to a pragma operator among the tokens that
the first one has put back, at most one of these is left, which belongs to the operand. -/
theorem Ahead.next (ahead : Ahead setup 2 p q) (running : q.isAborted = false) :
    (p.next setup).1 = (q.next setup).1 ∧ Ahead setup 2 (p.next setup).2 (q.next setup).2 := by
  cases starts : startsPragma (q.expandNext setup).1 with
  | false =>
    obtain ⟨token, after⟩ := ahead.next_of_plain lenient running starts
    exact ⟨token, after.mono (Nat.le_succ 1)⟩
  | true =>
    have running' := (ahead.isAborted lenient).trans running
    obtain ⟨token, after⟩ := ahead.expandNext lenient
    have goesOn : (q.expandNext setup).2.isAborted = false :=
      (isAborted_of_records lenient (records_expandNext setup q)).trans running
    have goesOn' := (after.isAborted lenient).trans goesOn
    rw [next_of_operator_of_lenient lenient (by simp [running]) starts (by simp [goesOn]),
      next_of_operator_of_lenient lenient (by simp [running']) (token ▸ starts) (by simp [goesOn']),
      token]
    obtain ⟨operands, later⟩ := after.readOperand lenient (q.expandNext setup).1
    obtain ⟨given, same⟩ := later.afterOperand lenient (q.expandNext setup).1 operands
    exact ⟨given, same.ahead 2⟩

/-- From there on the runs give the same tokens. -/
theorem Ahead.given (ahead : Ahead setup 2 p q) (running : q.isAborted = false) (n : Nat) :
    p.given setup n = q.given setup n := by
  induction n generalizing p q with
  | zero => exact (ahead.next lenient running).1
  | succ n ih =>
    have later := (ahead.next lenient running).2
    have goesOn := (isAborted_of_records lenient (records_next setup q)).trans running
    rw [← given_next, ← given_next]
    exact ih later goesOn

/-- If the first token that has been put back starts no pragma operator, there may be one more. -/
theorem Ahead.given_of_plain (ahead : Ahead setup 3 p q) (running : q.isAborted = false)
    (plain : startsPragma (q.expandNext setup).1 = false) (n : Nat) :
    p.given setup n = q.given setup n := by
  obtain ⟨token, later⟩ := ahead.next_of_plain lenient running plain
  cases n with
  | zero => exact token
  | succ n =>
    have goesOn := (isAborted_of_records lenient (records_next setup q)).trans running
    rw [← given_next, ← given_next]
    exact later.given lenient goesOn n

end Lenient

/-! ## Malformed operators -/

/-- The tokens that are expanded for the operand of a pragma operator, and the run after them. -/
def operandRead (setup : Setup) (q : Preprocessor) : List Token × Preprocessor :=
  let opening := q.expandNext setup
  if opening.1.isOpen then
    let literal := opening.2.expandNext setup
    let close := literal.2.expandNext setup
    ([opening.1, literal.1, close.1], close.2)
  else
    ([opening.1], opening.2)

/-- The tokens of an operand stay as they are if they are put back. -/
def OperandStays (setup : Setup) (q : Preprocessor) : Prop :=
  Head.AllStay (q.operandRead setup).2.reader.session.macros (q.operandRead setup).2.pending
    (q.operandRead setup).1

/-- The call for a token comes to a pragma operator with a malformed operand, or with none. The run `q`
has expanded the keyword and nothing after it. -/
inductive FindsMalformed (setup : Setup) (keyword : Token) (q : Preprocessor) : Preprocessor → Prop where
  | here {p : Preprocessor} (running : p.isAborted = false) (expanded : (p.expandNext setup).1 = keyword)
      (after : (p.expandNext setup).2.checkAbort setup = q) (starts : startsPragma keyword = true)
      (goesOn : q.isAborted = false) (malformed : (q.readOperand setup keyword).1 = none) :
      FindsMalformed setup keyword q p
  /-- Another operator comes before it and is carried out without a token. -/
  | again {p first done after : Preprocessor} {operand : PragmaOperand} (running : p.isAborted = false)
      (expanded : (p.expandNext setup).2.checkAbort setup = first)
      (starts : startsPragma (p.expandNext setup).1 = true) (goesOn : first.isAborted = false)
      (read : first.readOperand setup (p.expandNext setup).1 = (some operand, after))
      (applied : after.applyPragma setup (p.expandNext setup).1 operand.literal = (false, done))
      (more : FindsMalformed setup keyword q done) : FindsMalformed setup keyword q p

variable {p q : Preprocessor} {keyword : Token}

/-- What was expanded for a malformed operand is put back. -/
theorem readOperand_malformed (malformed : (q.readOperand setup keyword).1 = none) :
    (q.readOperand setup keyword).2.ReadsAs
      ((q.operandRead setup).2.pushBack (q.operandRead setup).1) := by
  cases isOpen : (q.expandNext setup).1.isOpen with
  | false =>
    rw [readOperand_of_not_isOpen keyword isOpen, operandRead]
    simp only [isOpen, Bool.false_eq_true, if_false]
    exact .refl _
  | true =>
    rw [readOperand_of_isOpen keyword isOpen, closeOperand] at malformed ⊢
    rw [operandRead]
    simp only [isOpen, if_true]
    split at malformed
    · cases malformed
    · rename_i other
      rw [if_neg other]
      exact ((ReadsAs.refl _).report_left _ _ _).pushBack _

/-- The keyword is given, and what was expanded after it is put back. -/
theorem FindsMalformed.next (found : FindsMalformed setup keyword q p) :
    q.isAborted = false ∧ ∃ after, p.next setup = (keyword, after)
      ∧ after.ReadsAs ((q.operandRead setup).2.pushBack (q.operandRead setup).1) := by
  induction found with
  | @here p running expanded after starts goesOn malformed =>
    subst after
    refine ⟨goesOn, _, ?_, readOperand_malformed malformed⟩
    rw [next_of_operator (by simp [running]) (expanded ▸ starts) (by simp [goesOn]), expanded]
    generalize ((p.expandNext setup).2.checkAbort setup).readOperand setup keyword = read at malformed ⊢
    obtain ⟨operand, z⟩ := read
    obtain rfl : operand = none := malformed
    rfl
  | again running expanded starts goesOn read applied more ih =>
    subst expanded
    rw [next_of_operator (by simp [running]) starts (by simp [goesOn]), read, afterOperand, applied]
    exact ih

theorem ahead_operandRead (stays : q.OperandStays setup)
    (same : p.ReadsAs ((q.operandRead setup).2.pushBack (q.operandRead setup).1)) :
    Ahead setup (q.operandRead setup).1.length p q := by
  refine .putBack (Nat.le_refl _) ?_ stays same
  unfold operandRead
  simp only []
  split
  · exact .expanding rfl (.expanding rfl (.expanding rfl (.nothing _)))
  · exact .expanding rfl (.nothing _)

/-! ## Operands that stay -/

section Steady

variable {table : MacroTable} {r : Reader}

theorem macros_pull (steady : ∀ passed, r.Passes setup passed → passed.session.macros = table) :
    (r.pull setup).2.session.macros = table := by
  fun_induction Reader.pull setup r with
  | case1 r token next stepped => exact (Reader.macros_of_give stepped).trans (steady r (.here r))
  | case2 r next stepped ih => exact ih fun passed run => steady passed (.later stepped run)

theorem macros_gather {depth : Nat}
    (steady : ∀ passed, GatherPasses setup depth r passed → passed.session.macros = table) :
    (gather setup depth r).2.session.macros = table := by
  fun_induction gather setup depth r with
  | case1 depth r ended => exact macros_pull fun passed run => steady passed (.pulling run)
  | case2 depth r inner goesOn more ih => exact ih fun passed run => steady passed (.later goesOn run)

theorem macros_gatherFrom {opening : Token} {inner : List Token} (known : r.session.macros = table)
    (steady : ∀ depth passed, opening.isOpen = true → Arguments.depthAfter 0 inner = some depth →
      GatherPasses setup depth r passed → passed.session.macros = table) :
    (gatherFrom setup opening inner r).2.session.macros = table := by
  unfold gatherFrom
  split
  · exact known
  · rename_i depth unclosed
    split at unclosed
    · exact macros_gather fun passed run => steady depth passed ‹_› unclosed run
    · cases unclosed

theorem macros_gatherCall {pending : List Token} (known : r.session.macros = table)
    (steady : ∀ passed, CallPasses setup pending r passed → passed.session.macros = table) :
    (gatherCall setup r pending).2.session.macros = table := by
  unfold gatherCall
  split
  · exact macros_gatherFrom known fun depth passed isOpen unclosed run =>
      steady passed (.pending isOpen unclosed run)
  · refine macros_gatherFrom (macros_pull fun passed run => steady passed (.pulling run)) ?_
    intro depth passed isOpen unclosed run
    cases unclosed
    exact steady passed (.pulled isOpen run)

theorem macros_headOfMacro {m : Macro} (site : Token) (known : q.reader.session.macros = table)
    (steady : ∀ passed, m.isFunctionLike = true → CallPasses setup q.pending q.reader passed →
      passed.session.macros = table) :
    (headOfMacro setup m site q).2.session.macros = table := by
  unfold headOfMacro
  split
  · rename_i isFunctionLike
    exact macros_gatherCall known fun passed => steady passed isFunctionLike
  · exact known

theorem macros_take (known : p.reader.session.macros = table)
    (steady : ∀ passed, ExpandPasses setup p passed → passed.session.macros = table) :
    (p.take setup).2.reader.session.macros = table := by
  unfold take
  split
  · exact known
  · exact macros_pull fun passed run => steady passed (.taking ‹_› run)

/-- A token that has been expanded stays as it is before what follows, if no directive has changed the
macros while it was expanded. -/
theorem stays_expandNext (known : p.reader.session.macros = table)
    (steady : ∀ passed, ExpandPasses setup p passed → passed.session.macros = table) :
    (p.expandNext setup).2.reader.session.macros = table
      ∧ Head.Stays table (p.expandNext setup).1 (p.expandNext setup).2.pending := by
  -- A name that is not called leaves the macros alone, and what follows it tells that it is not.
  have head {p q : Preprocessor} {site : Token} {m : Macro} {head : Head} {r : Reader}
      (known : p.reader.session.macros = table)
      (steady : ∀ passed, ExpandPasses setup p passed → passed.session.macros = table)
      (taken : p.take setup = (site, q)) (called : Head.called? q.reader.session.macros site = some m)
      (found : headOfMacro setup m site q = (head, r)) :
      r.session.macros = table ∧ Head.called? table site = some m
        ∧ ∃ rest, head = Head.ofMacro m site rest ∧ Head.Decides m rest := by
    have took := macros_take known steady
    rw [taken] at took
    have after := macros_headOfMacro site took fun passed isCall run =>
      steady passed (.gathering taken called isCall run)
    have decides := decides_headOfMacro setup m site q
    rw [found] at after decides
    exact ⟨after, took ▸ called, decides⟩
  fun_induction expandNext setup p with
  | case1 p site q taken notCalled =>
    have took := macros_take known steady
    rw [taken] at took
    exact ⟨took, Head.stays_of_none (took ▸ notCalled)⟩
  | case2 p site q taken m called token rest r found =>
    obtain ⟨after, called', gathered, form, decided⟩ := head known steady taken called found
    obtain rfl := Head.rest_of_ofMacro.1 _ _ form.symm
    obtain rfl := Head.site_of_ofMacro.1 _ _ form.symm
    refine ⟨after, fun m' same => ?_⟩
    obtain rfl := Option.some.inj (called'.symm.trans same)
    exact ⟨decided, .inl form.symm⟩
  | case3 p site q taken m called kind token rest r found done =>
    obtain ⟨after, -⟩ := head known steady taken called found
    exact ⟨after, Head.stays_of_none (Head.called?_of_not_isName (by cases kind <;> rfl))⟩
  | case4 p site q taken m called code token rest r found =>
    obtain ⟨after, called', gathered, form, decided⟩ := head known steady taken called found
    obtain rfl := Head.rest_of_ofMacro.2.2 _ _ _ form.symm
    obtain rfl := Head.site_of_ofMacro.2.2 _ _ _ form.symm
    refine ⟨after, fun m' same => ?_⟩
    obtain rfl := Option.some.inj (called'.symm.trans same)
    exact ⟨decided, .inr ⟨code, form.symm⟩⟩
  | case5 p site q taken m called c r found ih =>
    obtain ⟨after, -⟩ := head known steady taken called found
    exact ih after fun passed run => steady passed (.again taken called found run)

/-- No directive that is read with the operand changes the macros, and if the second token is the name of
a function-like macro and the third one is a parenthesis, no macro has made this parenthesis. -/
structure OperandIsSteady (setup : Setup) (q : Preprocessor) : Prop where
  steady : ∀ passed, OperandPasses setup q passed → passed.session.macros = q.reader.session.macros
  written : ∀ m,
    Head.called? q.reader.session.macros ((q.expandNext setup).2.expandNext setup).1 = some m →
      (((q.expandNext setup).2.expandNext setup).2.expandNext setup).1.isOpen = true →
        (((q.expandNext setup).2.expandNext setup).2.take setup).1.isOpen = true

/-- The tokens of a steady operand stay as they are. -/
theorem OperandIsSteady.stays (operand : q.OperandIsSteady setup) : q.OperandStays setup := by
  obtain ⟨steady, written⟩ := operand
  obtain ⟨known, opening⟩ := stays_expandNext rfl fun passed run => steady passed (.opening run)
  unfold OperandStays operandRead
  cases isOpen : (q.expandNext setup).1.isOpen with
  | false =>
    simp only [isOpen, Bool.false_eq_true, if_false, Head.AllStay, and_true, List.nil_append]
    rw [known]
    exact opening
  | true =>
    obtain ⟨known, literal⟩ := stays_expandNext known fun passed run =>
      steady passed (.literal isOpen run)
    obtain ⟨known', close⟩ := stays_expandNext known fun passed run =>
      steady passed (.close isOpen run)
    simp only [isOpen, if_true, Head.AllStay, and_true, List.nil_append]
    rw [known']
    refine ⟨Head.stays_of_none (Head.called?_of_isOpen isOpen), fun m called => ?_, close⟩
    obtain ⟨decided, form⟩ := literal m called
    obtain ⟨next, inner, waiting, -⟩ := decided (Head.isFunctionLike_of_ofMacro form)
    have taken : ((q.expandNext setup).2.expandNext setup).2.take setup
        = (next, { ((q.expandNext setup).2.expandNext setup).2 with pending := inner }) := by
      rw [take, waiting]
    cases opens : next.isOpen with
    | true =>
      -- The parenthesis is taken as it is, so what is put back is what was there.
      rw [expandNext_of_none taken (Head.called?_of_isOpen opens), List.singleton_append, ← waiting]
      exact ⟨decided, form⟩
    | false =>
      have closed : (((q.expandNext setup).2.expandNext setup).2.expandNext setup).1.isOpen = false := by
        refine Bool.eq_false_iff.mpr fun isOpen' => ?_
        have isOpen'' := written m called isOpen'
        rw [taken, opens] at isOpen''
        cases isOpen''
      obtain ⟨decided', plain⟩ := @Head.ofMacro_of_not_isOpen
        ((q.expandNext setup).2.expandNext setup).1 m (Head.isFunctionLike_of_ofMacro form) _ closed
        (((q.expandNext setup).2.expandNext setup).2.expandNext setup).2.pending
      exact ⟨decided', .inl plain⟩

end Steady

/-! ## The rest of the run -/

/-- A malformed pragma operator is given as an ordinary identifier. Compared with a run that has in its
place another name, which is no macro, the run gives the same tokens after it if what was expanded
for the operand stays as it is; and that is so if the operand is steady. -/
theorem given_malformed_operator (lenient : setup.config.failFast = false)
    (found : FindsMalformed setup keyword q p) {word : Token}
    (plain : Head.called? q.reader.session.macros word = none) (ordinary : startsPragma word = false) :
    p.given setup 0 = keyword ∧ (q.pushBack [word]).given setup 0 = word
      ∧ (q.OperandStays setup → ∀ n, p.given setup (n + 1) = (q.pushBack [word]).given setup (n + 1))
      ∧ (q.OperandIsSteady setup → q.OperandStays setup) := by
  obtain ⟨running, after, gives, same⟩ := found.next
  have running' : (q.pushBack [word]).isAborted = false := running
  have taken : (q.pushBack [word]).take setup = (word, q) := rfl
  have expanded : (q.pushBack [word]).expandNext setup = (word, q) := expandNext_of_none taken plain
  have replaced : (q.pushBack [word]).next setup = (word, q) := by
    rw [next_of_plain_of_lenient lenient running' (by rw [expanded]; exact ordinary), expanded]
  refine ⟨congrArg Prod.fst gives, congrArg Prod.fst replaced, fun stays n => ?_,
    OperandIsSteady.stays⟩
  have ahead := ahead_operandRead stays same
  have later : after.given setup n = q.given setup n := by
    cases isOpen : (q.expandNext setup).1.isOpen with
    | false =>
      have few : (q.operandRead setup).1.length ≤ 2 := by simp [operandRead, isOpen]
      exact (ahead.mono few).given lenient running n
    | true =>
      have few : (q.operandRead setup).1.length ≤ 3 := by simp [operandRead, isOpen]
      refine (ahead.mono few).given_of_plain lenient running ?_ n
      have kind := (Token.isPunctuator_iff.mp isOpen).1
      simp [startsPragma, Token.isNamed, Token.isName, kind]
  rw [← given_next, ← given_next, gives, replaced]
  exact later

/-! The operand is the name of a function-like macro, which is not called: `_Pragma ( f ) y`. -/

/-- The name of the operator. -/
def operatorName : Token where
  kind := .identifier
  lexeme := pragmaOperator

/-- The macro `f(x)`. -/
def operandMacro : Macro where
  name := ['f']
  replacement := .function { named := [['x']] } []

/-- The name of the macro. -/
def operandName : Token where
  kind := .identifier
  lexeme := ['f']

/-- A name that is no macro. -/
def operandWord : Token where
  kind := .identifier
  lexeme := ['x']

/-- What follows the operator. -/
def operandTokens : List Token :=
  [{ kind := .punctuator, lexeme := ['('] }, operandName, { kind := .punctuator, lexeme := [')'] },
    { kind := .identifier, lexeme := ['y'] }]

/-- The tokens after the operator are pending, and there is nothing more to read. -/
def operandRun : Preprocessor where
  reader := { Reader.freshRun.reader with
    session := { Reader.freshRun.reader.session with macros := { macros := [operandMacro] } } }
  pending := operandTokens

/-- Nothing is read for a pending token that is no macro. -/
theorem expandNext_operandRun {token : Token}
    (plain : Head.called? operandRun.reader.session.macros token = none) (rest : List Token) :
    expandNext {} ⟨operandRun.reader, token :: rest⟩ = (token, ⟨operandRun.reader, rest⟩)
      ∧ ∀ passed, ¬ExpandPasses {} ⟨operandRun.reader, token :: rest⟩ passed := by
  have taken : take {} ⟨operandRun.reader, token :: rest⟩ = (token, ⟨operandRun.reader, rest⟩) := rfl
  refine ⟨expandNext_of_none taken plain, fun passed run => ?_⟩
  cases run with
  | taking nothing pulled => cases nothing
  | gathering taken' called =>
    cases taken.symm.trans taken'
    rw [plain] at called
    cases called
  | again taken' called =>
    cases taken.symm.trans taken'
    rw [plain] at called
    cases called

/-- Nothing is read for the name of the macro before a token that is no parenthesis. -/
theorem expandNext_operandName {next : Token} (closed : next.isOpen = false) (rest : List Token) :
    expandNext {} ⟨operandRun.reader, operandName :: next :: rest⟩
        = (operandName, ⟨operandRun.reader, next :: rest⟩)
      ∧ ∀ passed, ¬ExpandPasses {} ⟨operandRun.reader, operandName :: next :: rest⟩ passed := by
  have taken : take {} ⟨operandRun.reader, operandName :: next :: rest⟩
      = (operandName, ⟨operandRun.reader, next :: rest⟩) := rfl
  have called : Head.called? operandRun.reader.session.macros operandName = some operandMacro := rfl
  obtain ⟨decided, plain⟩ := @Head.ofMacro_of_not_isOpen operandName operandMacro rfl next closed rest
  have head : headOfMacro {} operandMacro operandName ⟨operandRun.reader, next :: rest⟩
      = (.plain operandName (next :: rest), operandRun.reader) := by
    rw [← plain]
    exact headOfMacro_of_decides decided operandName
  refine ⟨by rw [expandNext_of_some taken called, head], fun passed run => ?_⟩
  cases run with
  | taking nothing pulled => cases nothing
  | gathering taken' called' isCall gathered =>
    cases taken.symm.trans taken'
    cases gathered with
    | pending isOpen unclosed more =>
      rw [closed] at isOpen
      cases isOpen
  | again taken' called' found more =>
    cases taken.symm.trans taken'
    cases called.symm.trans called'
    cases head.symm.trans found

theorem given_malformed_operator_name :
    let p := operandRun.pushBack [operatorName]
    operandRun.OperandIsSteady {} ∧ operandRun.OperandStays {}
      ∧ p.given {} 0 = operatorName ∧ (operandRun.pushBack [operandWord]).given {} 0 = operandWord
      ∧ ∀ n, p.given {} (n + 1) = (operandRun.pushBack [operandWord]).given {} (n + 1) := by
  intro p
  have keyword := @expandNext_operandRun operatorName (by decide) operandTokens
  have opening := @expandNext_operandRun operandTokens[0] (by decide) (operandTokens.drop 1)
  have literal := @expandNext_operandName operandTokens[2] (by decide) (operandTokens.drop 3)
  have close := @expandNext_operandRun operandTokens[2] (by decide) (operandTokens.drop 3)
  have expanded : p.expandNext {} = (operatorName, operandRun) := keyword.1
  have first : operandRun.expandNext {}
      = (operandTokens[0], ⟨operandRun.reader, operandTokens.drop 1⟩) := opening.1
  have second : expandNext {} ⟨operandRun.reader, operandTokens.drop 1⟩
      = (operandName, ⟨operandRun.reader, operandTokens.drop 2⟩) := literal.1
  have third : expandNext {} ⟨operandRun.reader, operandTokens.drop 2⟩
      = (operandTokens[2], ⟨operandRun.reader, operandTokens.drop 3⟩) := close.1
  have malformed : (operandRun.readOperand {} operatorName).1 = none := by
    simp only [readOperand, first, second, third]
    rfl
  have found : FindsMalformed {} operatorName operandRun p :=
    .here rfl (congrArg Prod.fst expanded) (by rw [expanded]; rfl) rfl rfl malformed
  have steady : operandRun.OperandIsSteady {} := by
    refine ⟨fun passed run => ?_, fun m called isOpen => ?_⟩
    · cases run with
      | opening run => exact (opening.2 passed run).elim
      | literal isOpen run =>
        rw [first] at run
        exact (literal.2 passed run).elim
      | close isOpen run =>
        rw [first, second] at run
        exact (close.2 passed run).elim
    · rw [first, second, third] at isOpen
      cases isOpen
  obtain ⟨given, replaced, later, stays⟩ :=
    @given_malformed_operator {} p operandRun operatorName rfl found operandWord (by decide) rfl
  exact ⟨steady, stays steady, given, replaced, later (stays steady)⟩

end Preprocessor

end CPreprocessor
