/-
# The readers that a run passes

A run asks its reader for tokens, and the reader makes steps until it gives one. The
readers that are passed on the way are listed here in the way the functions of a run
call each other: while a token is pulled (`Reader.Passes`), while the arguments of a call
are gathered, while a token is expanded, while the next token is found, and in a run as
a whole (`Preprocessor.Passes`). No other reader makes a step in the run, so what has to
hold for a run has to hold of these readers only; and every invariant holds of them
(`Invariant.passes`).
-/
import CPreprocessor.Proofs.Reading.Items
import CPreprocessor.Proofs.Run.Invariant

namespace CPreprocessor

/-- The second reader is passed while the first one is asked for a token. -/
inductive Reader.Passes (setup : Setup) : Reader → Reader → Prop where
  | here (r : Reader) : Passes setup r r
  | later {r next passed : Reader} (stepped : r.step setup = .goOn next)
      (more : Passes setup next passed) : Passes setup r passed

namespace Reader.Passes

variable {setup : Setup} {r passed : Reader} (run : r.Passes setup passed)
include run

theorem trans {more : Reader} (further : passed.Passes setup more) : r.Passes setup more := by
  induction run with
  | here r => exact further
  | later stepped _ ih => exact .later stepped (ih further)

/-- A reader gives the token that it gives from any reader that it passes on the way. -/
theorem pull_eq : r.pull setup = passed.pull setup := by
  induction run with
  | here r => rfl
  | later stepped _ ih => exact (pull_of_goOn stepped).trans ih

end Reader.Passes

/-- The token that is pulled is given by a reader that is passed on the way. -/
theorem Reader.exists_passes_give (setup : Setup) (r : Reader) :
    ∃ passed, r.Passes setup passed
      ∧ passed.step setup = .give (r.pull setup).1 (r.pull setup).2 := by
  fun_induction Reader.pull setup r with
  | case1 r token next stepped => exact ⟨r, .here r, stepped⟩
  | case2 r next stepped ih =>
    obtain ⟨passed, passes, given⟩ := ih
    exact ⟨passed, .later stepped passes, given⟩

namespace Preprocessor

/-- The second reader is passed while the first one is asked for arguments, which end where `depth`
parentheses are closed inside the outer ones. -/
inductive GatherPasses (setup : Setup) : Nat → Reader → Reader → Prop where
  | pulling {depth : Nat} {r passed : Reader} (pulled : r.Passes setup passed) :
      GatherPasses setup depth r passed
  | later {depth inner : Nat} {r passed : Reader}
      (goesOn : Arguments.depthAfter depth [(r.pull setup).1] = some inner)
      (more : GatherPasses setup inner (r.pull setup).2 passed) : GatherPasses setup depth r passed

/-- The reader is passed while what follows the name of a function-like macro is read. -/
inductive CallPasses (setup : Setup) : List Token → Reader → Reader → Prop where
  | pulling {r passed : Reader} (pulled : r.Passes setup passed) : CallPasses setup [] r passed
  | pulled {r passed : Reader} (isOpen : (r.pull setup).1.isOpen = true)
      (gathered : GatherPasses setup 0 (r.pull setup).2 passed) : CallPasses setup [] r passed
  | pending {opening : Token} {inner : List Token} {depth : Nat} {r passed : Reader}
      (isOpen : opening.isOpen = true) (unclosed : Arguments.depthAfter 0 inner = some depth)
      (gathered : GatherPasses setup depth r passed) : CallPasses setup (opening :: inner) r passed

/-- The reader is passed while a token is expanded. -/
inductive ExpandPasses (setup : Setup) : Preprocessor → Reader → Prop where
  | taking {p : Preprocessor} {passed : Reader} (nothing : p.pending = [])
      (pulled : p.reader.Passes setup passed) : ExpandPasses setup p passed
  | gathering {p q : Preprocessor} {site : Token} {m : Macro} {passed : Reader}
      (taken : p.take setup = (site, q))
      (called : Head.called? q.reader.session.macros site = some m)
      (isCall : m.isFunctionLike = true) (gathered : CallPasses setup q.pending q.reader passed) :
      ExpandPasses setup p passed
  | again {p q : Preprocessor} {site : Token} {m : Macro} {c : Call} {r passed : Reader}
      (taken : p.take setup = (site, q))
      (called : Head.called? q.reader.session.macros site = some m)
      (found : headOfMacro setup m site q = (.call c, r))
      (more : ExpandPasses setup (replaceCall setup r c) passed) : ExpandPasses setup p passed

/-- The reader is passed while the operand of a pragma operator is read. -/
inductive OperandPasses (setup : Setup) : Preprocessor → Reader → Prop where
  | opening {p : Preprocessor} {passed : Reader} (expanded : ExpandPasses setup p passed) :
      OperandPasses setup p passed
  | literal {p : Preprocessor} {passed : Reader} (isOpen : (p.expandNext setup).1.isOpen = true)
      (expanded : ExpandPasses setup (p.expandNext setup).2 passed) : OperandPasses setup p passed
  | close {p : Preprocessor} {passed : Reader} (isOpen : (p.expandNext setup).1.isOpen = true)
      (expanded : ExpandPasses setup ((p.expandNext setup).2.expandNext setup).2 passed) :
      OperandPasses setup p passed

/-- The reader is passed while the next token is found. -/
inductive NextPasses (setup : Setup) : Preprocessor → Reader → Prop where
  | expanding {p : Preprocessor} {passed : Reader} (running : p.isAborted = false)
      (expanded : ExpandPasses setup p passed) : NextPasses setup p passed
  | operand {p q : Preprocessor} {passed : Reader} (running : p.isAborted = false)
      (expanded : (p.expandNext setup).2.checkAbort setup = q)
      (starts : startsPragma (p.expandNext setup).1 = true) (goesOn : q.isAborted = false)
      (read : OperandPasses setup q passed) : NextPasses setup p passed
  | again {p q after done : Preprocessor} {operand : PragmaOperand} {passed : Reader}
      (running : p.isAborted = false) (expanded : (p.expandNext setup).2.checkAbort setup = q)
      (starts : startsPragma (p.expandNext setup).1 = true) (goesOn : q.isAborted = false)
      (read : q.readOperand setup (p.expandNext setup).1 = (some operand, after))
      (applied : after.applyPragma setup (p.expandNext setup).1 operand.literal = (false, done))
      (more : NextPasses setup done passed) : NextPasses setup p passed

/-- While the next token is found, a pragma operator is carried out whose string holds the tokens. -/
inductive NextApplies (setup : Setup) : Preprocessor → List Token → Prop where
  | here {p q after : Preprocessor} {operand : PragmaOperand} {args : List Token}
      (running : p.isAborted = false) (expanded : (p.expandNext setup).2.checkAbort setup = q)
      (starts : startsPragma (p.expandNext setup).1 = true) (goesOn : q.isAborted = false)
      (read : q.readOperand setup (p.expandNext setup).1 = (some operand, after))
      (holds : pragmaTokens setup (p.expandNext setup).1 operand.literal = .ok args) :
      NextApplies setup p args
  | again {p q after done : Preprocessor} {operand : PragmaOperand} {args : List Token}
      (running : p.isAborted = false) (expanded : (p.expandNext setup).2.checkAbort setup = q)
      (starts : startsPragma (p.expandNext setup).1 = true) (goesOn : q.isAborted = false)
      (read : q.readOperand setup (p.expandNext setup).1 = (some operand, after))
      (applied : after.applyPragma setup (p.expandNext setup).1 operand.literal = (false, done))
      (more : NextApplies setup done args) : NextApplies setup p args

/-- In the run a pragma operator is carried out whose string holds the tokens. -/
inductive Applies (setup : Setup) : Preprocessor → List Token → Prop where
  | next {p : Preprocessor} {args : List Token} (found : NextApplies setup p args) : Applies setup p args
  | later {p : Preprocessor} {args : List Token} (goesOn : (p.next setup).1.isEnd = false)
      (more : Applies setup (p.next setup).2 args) : Applies setup p args

/-- The reader is passed in the run. -/
inductive Passes (setup : Setup) : Preprocessor → Reader → Prop where
  | next {p : Preprocessor} {passed : Reader} (found : NextPasses setup p passed) :
      Passes setup p passed
  | later {p : Preprocessor} {passed : Reader} (goesOn : (p.next setup).1.isEnd = false)
      (more : Passes setup (p.next setup).2 passed) : Passes setup p passed

end Preprocessor

/-! ## The functions of a run -/

namespace Preprocessor

variable {setup : Setup}

theorem gather_of_none {depth : Nat} {r : Reader}
    (ends : Arguments.depthAfter depth [(r.pull setup).1] = none) :
    gather setup depth r = ([(r.pull setup).1], (r.pull setup).2) := by
  rw [gather]
  split
  · rfl
  · rename_i goesOn
    rw [ends] at goesOn
    cases goesOn

theorem gather_of_some {depth inner : Nat} {r : Reader}
    (goesOn : Arguments.depthAfter depth [(r.pull setup).1] = some inner) :
    gather setup depth r
      = ((r.pull setup).1 :: (gather setup inner (r.pull setup).2).1,
          (gather setup inner (r.pull setup).2).2) := by
  rw [gather]
  split
  · rename_i ends
    rw [ends] at goesOn
    cases goesOn
  · rename_i depth' same
    rw [same] at goesOn
    cases goesOn
    rfl

section Expanding

variable {p q : Preprocessor} {site : Token} (taken : p.take setup = (site, q))
include taken

/-- A token that does not call a macro stays. -/
theorem expandNext_of_none (stays : Head.called? q.reader.session.macros site = none) :
    p.expandNext setup = (site, q) := by
  rw [expandNext]
  split
  rename_i site' q' taken'
  cases taken.symm.trans taken'
  split
  · rfl
  · rename_i called
    rw [stays] at called
    cases called

/-- A token that calls a macro is replaced by what the head of the call asks for. -/
theorem expandNext_of_some {m : Macro}
    (called : Head.called? q.reader.session.macros site = some m) :
    p.expandNext setup =
      match headOfMacro setup m site q with
      | (.plain _ rest, r) => (site, { reader := r, pending := rest })
      | (.builtin kind _ rest, r) =>
        let done := Expansion.expandBuiltin (context setup r) kind site r.session.expansion
        (done.1, { reader := withExpansion r done.2, pending := rest })
      | (.rejected code _ rest, r) =>
        (site, { reader := r.report site code site.lexeme, pending := rest })
      | (.call c, r) => expandNext setup (replaceCall setup r c) := by
  rw [expandNext]
  split
  rename_i site' q' taken'
  cases taken.symm.trans taken'
  split
  · rename_i stays
    rw [stays] at called
    cases called
  · rename_i m' called'
    cases called'.symm.trans called
    split <;> rename_i found <;> simp only [found]

end Expanding

theorem next_of_aborted {p : Preprocessor} (aborted : p.isAborted = true) :
    p.next setup = p.finish := by
  rw [next, if_pos aborted]

/-- What a run that goes on gives for the first expanded token. -/
theorem next_of_running {p : Preprocessor} (running : ¬p.isAborted = true) :
    p.next setup =
      if startsPragma (p.expandNext setup).1 then
        if ((p.expandNext setup).2.checkAbort setup).isAborted then
          ((p.expandNext setup).2.checkAbort setup).finish
        else
          match ((p.expandNext setup).2.checkAbort setup).readOperand setup (p.expandNext setup).1 with
          | (none, q) => ((p.expandNext setup).1, q)
          | (some operand, q) =>
            match q.applyPragma setup (p.expandNext setup).1 operand.literal with
            | (true, q) =>
              give (verbatim (p.expandNext setup).1) ((q.checkAbort setup).passOperand operand)
            | (false, q) => next setup q
      else
        give (p.expandNext setup).1 ((p.expandNext setup).2.checkAbort setup) := by
  rw [next, if_neg running]
  simp only []
  split
  · split
    · rfl
    · split <;> rename_i read <;> simp only [read]
      split <;> rename_i applied <;> simp only [applied]
  · rfl

/-- What the call for a token gives once the operand of a pragma operator has been looked for. -/
def afterOperand (setup : Setup) (keyword : Token) :
    Option PragmaOperand × Preprocessor → Token × Preprocessor
  | (none, q) => (keyword, q)
  | (some operand, q) =>
    match q.applyPragma setup keyword operand.literal with
    | (true, q) => give (verbatim keyword) ((q.checkAbort setup).passOperand operand)
    | (false, q) => next setup q

theorem next_of_operator {p : Preprocessor} (running : ¬p.isAborted = true)
    (starts : startsPragma (p.expandNext setup).1 = true)
    (asked : ¬((p.expandNext setup).2.checkAbort setup).isAborted = true) :
    p.next setup = afterOperand setup (p.expandNext setup).1
      (((p.expandNext setup).2.checkAbort setup).readOperand setup (p.expandNext setup).1) := by
  rw [next_of_running running, if_pos starts, if_neg asked]
  rfl

theorem next_of_plain {p : Preprocessor} (running : ¬p.isAborted = true)
    (plain : ¬startsPragma (p.expandNext setup).1 = true) :
    p.next setup = give (p.expandNext setup).1 ((p.expandNext setup).2.checkAbort setup) := by
  rw [next_of_running running, if_neg plain]

/-- The operand of a pragma operator when its tokens are there. -/
def closeOperand (keyword opening literal : Token) (close : Token × Preprocessor) :
    Option PragmaOperand × Preprocessor :=
  if literal.kind = .string && close.1.isClose then
    (some ⟨opening, literal, close.1⟩, close.2)
  else
    (none,
      (close.2.report keyword .invalidDirective
        "_Pragma takes a parenthesized string literal".toList).pushBack
        [opening, literal, close.1])

theorem readOperand_of_not_isOpen (keyword : Token) {p : Preprocessor}
    (closed : (p.expandNext setup).1.isOpen = false) :
    p.readOperand setup keyword
      = (none, (p.expandNext setup).2.pushBack [(p.expandNext setup).1]) := by
  simp only [readOperand, closed, Bool.not_false, if_true]

theorem readOperand_of_isOpen (keyword : Token) {p : Preprocessor}
    (isOpen : (p.expandNext setup).1.isOpen = true) :
    p.readOperand setup keyword
      = closeOperand keyword (p.expandNext setup).1 ((p.expandNext setup).2.expandNext setup).1
        (((p.expandNext setup).2.expandNext setup).2.expandNext setup) := by
  simp only [readOperand, isOpen, Bool.not_true, Bool.false_eq_true, if_false]
  rfl

/-- Marking the innermost file changes nothing but which files are read only once. -/
theorem markOnce_eq (p : Preprocessor) :
    p.markOnce = { p with reader := { p.reader with
      onceFiles := match p.reader.frames with
        | [] => p.reader.onceFiles
        | frame :: _ =>
          if frame.isPreamble then p.reader.onceFiles
          else frame.canonical :: p.reader.onceFiles } } := by
  obtain ⟨⟨_, frames, _, _, _, _, _, _, _, _⟩, _⟩ := p
  cases frames with
  | nil => rfl
  | cons frame outer =>
    simp only [markOnce]
    split <;> rfl

end Preprocessor

/-! ## Runs without calls -/

/-- In `n` steps the reader comes to the end of its main file. On the way no token calls a macro or
starts a pragma operator, and `check` holds of every reader. -/
def Reader.walks (setup : Setup) (check : Reader → Bool) : Nat → Reader → Bool
  | 0, _ => false
  | n + 1, r =>
    check r &&
      match r.step setup with
      | .goOn next => walks setup check n next
      | .give token next =>
        token.isEnd || ((Head.called? next.session.macros token).isNone
          && !Preprocessor.startsPragma token && walks setup check n next)

namespace Reader

variable {setup : Setup} {check : Reader → Bool} {n : Nat} {r : Reader}

/-- What a walk says of the token that is pulled. -/
theorem pull_of_walks (walked : r.walks setup check n = true) :
    (∀ passed, r.Passes setup passed → check passed = true)
      ∧ ((r.pull setup).1.isEnd = true
        ∨ Head.called? (r.pull setup).2.session.macros (r.pull setup).1 = none
          ∧ Preprocessor.startsPragma (r.pull setup).1 = false
          ∧ ∃ m, (r.pull setup).2.walks setup check m = true) := by
  induction n generalizing r with
  | zero => cases walked
  | succ n ih =>
    rw [walks, Bool.and_eq_true] at walked
    obtain ⟨holds, walked⟩ := walked
    cases stepped : r.step setup with
    | goOn next =>
      rw [stepped] at walked
      obtain ⟨passes, later⟩ := ih walked
      rw [pull_of_goOn stepped]
      refine ⟨?_, later⟩
      intro passed run
      cases run with
      | here => exact holds
      | later stepped' more =>
        cases stepped.symm.trans stepped'
        exact passes passed more
    | give token next =>
      rw [stepped] at walked
      rw [pull_of_give stepped]
      refine ⟨?_, ?_⟩
      · intro passed run
        cases run with
        | here => exact holds
        | later stepped' more => cases stepped.symm.trans stepped'
      · simp only [Bool.or_eq_true, Bool.and_eq_true, Option.isNone_iff_eq_none, Bool.not_eq_true']
          at walked
        obtain ends | ⟨⟨plain, notPragma⟩, more⟩ := walked
        · exact .inl ends
        · exact .inr ⟨plain, notPragma, n, more⟩

end Reader

namespace Preprocessor

variable {setup : Setup} {check : Reader → Bool} {n : Nat} {p : Preprocessor} {passed : Reader}

theorem startsPragma_of_isEnd {token : Token} (ends : token.isEnd = true) :
    startsPragma token = false := by
  have kind : token.kind = .endOfFile := by simpa [Token.isEnd] using ends
  simp [startsPragma, Token.isNamed, Token.isName, kind]

theorem isOpen_of_isEnd {token : Token} (ends : token.isEnd = true) : token.isOpen = false := by
  have kind : token.kind = .endOfFile := by simpa [Token.isEnd] using ends
  simp [Token.isOpen, Token.isPunctuator, kind]

theorem called?_of_isEnd {table : MacroTable} {token : Token} (ends : token.isEnd = true) :
    Head.called? table token = none := by
  refine Option.eq_none_iff_forall_ne_some.mpr fun m called => ?_
  rw [Head.isEnd_of_called? called] at ends
  cases ends

/-- Along a walk, each token is the next one as it is pulled. -/
theorem expandNext_of_walks (nothing : p.pending = []) (walked : p.reader.walks setup check n = true) :
    p.expandNext setup = ((p.reader.pull setup).1, { p with reader := (p.reader.pull setup).2 }) := by
  have taken : p.take setup
      = ((p.reader.pull setup).1, { p with reader := (p.reader.pull setup).2 }) := by
    unfold take
    rw [nothing]
  refine expandNext_of_none taken ?_
  obtain ends | ⟨plain, -, -⟩ := (Reader.pull_of_walks walked).2
  · exact called?_of_isEnd ends
  · exact plain

theorem startsPragma_of_walks (walked : p.reader.walks setup check n = true) :
    startsPragma (p.reader.pull setup).1 = false := by
  obtain ends | ⟨-, notPragma, -⟩ := (Reader.pull_of_walks walked).2
  · exact startsPragma_of_isEnd ends
  · exact notPragma

theorem check_of_expandPasses (nothing : p.pending = [])
    (walked : p.reader.walks setup check n = true) (run : ExpandPasses setup p passed) :
    check passed = true := by
  have head {site : Token} {m : Macro} {q : Preprocessor} (taken : p.take setup = (site, q))
      (called : Head.called? q.reader.session.macros site = some m) : False := by
    unfold take at taken
    rw [nothing] at taken
    cases taken
    have plain : Head.called? (p.reader.pull setup).2.session.macros (p.reader.pull setup).1
        = none := by
      obtain ends | ⟨plain, -, -⟩ := (Reader.pull_of_walks walked).2
      · exact called?_of_isEnd ends
      · exact plain
    rw [plain] at called
    cases called
  cases run with
  | taking _ pulled => exact (Reader.pull_of_walks walked).1 passed pulled
  | gathering taken called isCall gathered => exact (head taken called).elim
  | again taken called found more => exact (head taken called).elim

/-- Along a walk, each token is given as it is pulled, unless the run has ended early. -/
theorem next_of_walks (lenient : setup.config.failFast = false) (nothing : p.pending = [])
    (walked : p.reader.walks setup check n = true) (running : ¬p.isAborted = true) :
    p.next setup = give (p.reader.pull setup).1 { p with reader := (p.reader.pull setup).2 } := by
  rw [next_of_running running, expandNext_of_walks nothing walked,
    if_neg (by rw [startsPragma_of_walks walked]; exact Bool.false_ne_true), checkAbort,
    Reader.checkAbort_of_lenient lenient]

/-- What has been checked along a walk holds of every reader that the run passes. -/
theorem check_of_passes (lenient : setup.config.failFast = false) (nothing : p.pending = [])
    (walked : p.reader.walks setup check n = true) (run : p.Passes setup passed) :
    check passed = true := by
  induction run generalizing n with
  | @next p passed found =>
    have plain : ¬startsPragma (p.expandNext setup).1 = true := by
      rw [expandNext_of_walks nothing walked, startsPragma_of_walks walked]
      exact Bool.false_ne_true
    cases found with
    | expanding running expanded => exact check_of_expandPasses nothing walked expanded
    | operand running expanded starts goesOn read => exact absurd starts plain
    | again running expanded starts goesOn read applied more => exact absurd starts plain
  | @later p passed goesOn more ih =>
    have more (q : Preprocessor) (finished : p.next setup = q.finish) : False := by
      have ends := (Reader.finish_isEnd (r := q.reader)).1
      rw [finished, show q.finish.1.isEnd = true from ends] at goesOn
      cases goesOn
    have running : ¬p.isAborted = true := fun aborted => more p (next_of_aborted aborted)
    -- A token that does not end the file is given as it was pulled.
    have given : p.next setup
        = ((p.reader.pull setup).1, { p with reader := (p.reader.pull setup).2 }) := by
      have next := next_of_walks lenient nothing walked running
      rw [give] at next
      split at next
      · exact (more _ next).elim
      · exact next
    rw [given] at goesOn more ih
    obtain ends | ⟨-, -, m, later⟩ := (Reader.pull_of_walks walked).2
    · rw [ends] at goesOn
      cases goesOn
    · exact ih nothing later

end Preprocessor

namespace Reader.Invariant

open Preprocessor

variable {setup : Setup} {P : Reader → Prop} (invariant : Invariant setup P)
include invariant

theorem pulls {r passed : Reader} (holds : P r) (pulled : r.Passes setup passed) : P passed := by
  induction pulled with
  | here r => exact holds
  | later stepped more ih => exact ih (invariant.step .endOfNothing holds (.inr stepped))

theorem gatherPasses {depth : Nat} {r passed : Reader} (holds : P r)
    (gathered : GatherPasses setup depth r passed) : P passed := by
  induction gathered with
  | pulling pulled => exact invariant.pulls holds pulled
  | later goesOn more ih => exact ih (invariant.pull holds)

theorem callPasses {pending : List Token} {r passed : Reader} (holds : P r)
    (called : CallPasses setup pending r passed) : P passed := by
  cases called with
  | pulling pulled => exact invariant.pulls holds pulled
  | pulled isOpen gathered => exact invariant.gatherPasses (invariant.pull holds) gathered
  | pending isOpen unclosed gathered => exact invariant.gatherPasses holds gathered

theorem expandPasses {p : Preprocessor} {passed : Reader} (holds : P p.reader)
    (expanded : ExpandPasses setup p passed) : P passed := by
  induction expanded with
  | taking nothing pulled => exact invariant.pulls holds pulled
  | gathering taken called isCall gathered =>
    have took := invariant.take holds
    rw [taken] at took
    exact invariant.callPasses took gathered
  | @again p q site m c r passed taken called found more ih =>
    have took := invariant.take holds
    rw [taken] at took
    have head := invariant.headOfMacro m site took
    rw [found] at head
    exact ih (invariant.withExpansion head (Expansion.precedes_expandCall _ c _))

theorem operandPasses {p : Preprocessor} {passed : Reader} (holds : P p.reader)
    (read : OperandPasses setup p passed) : P passed := by
  cases read with
  | opening expanded => exact invariant.expandPasses holds expanded
  | literal isOpen expanded => exact invariant.expandPasses (invariant.expandNext holds) expanded
  | close isOpen expanded =>
    exact invariant.expandPasses (invariant.expandNext (invariant.expandNext holds)) expanded

theorem nextPasses {p : Preprocessor} {passed : Reader} (holds : P p.reader)
    (found : NextPasses setup p passed) : P passed := by
  induction found with
  | expanding running expanded => exact invariant.expandPasses holds expanded
  | operand running expanded starts goesOn read =>
    subst expanded
    exact invariant.operandPasses (invariant.checkAbort (invariant.expandNext holds)) read
  | @again p q after done operand passed running expanded starts goesOn read applied more ih =>
    subst expanded
    have operands := invariant.readOperand (p.expandNext setup).1
      (invariant.checkAbort (invariant.expandNext holds))
    rw [read] at operands
    have carried := invariant.applyPragma (p.expandNext setup).1 operand.literal operands
    rw [applied] at carried
    exact ih carried

/-- An invariant that holds of the first reader of a run holds of every reader that is passed. -/
theorem passes {p : Preprocessor} {passed : Reader} (holds : P p.reader)
    (run : p.Passes setup passed) : P passed := by
  induction run with
  | next found => exact invariant.nextPasses holds found
  | later goesOn more ih => exact ih (invariant.next holds)

end Reader.Invariant

end CPreprocessor
