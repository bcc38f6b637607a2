/-
# Runs that are played through

The functions of a run recurse over what is left to read, so they do not compute. Here they are
written with a bound on their steps, with a check of every reader that they pass and with one of
the tokens in the string of every pragma operator that they carry out. Where the bound is enough, they
give what the functions of the run give, and the checks hold of all the readers that the run passes
(`Preprocessor.tokensWithin_of_play`) and of all its pragma operators (`Preprocessor.accepts_of_play`).
-/
import CPreprocessor.Preprocessor.Run
import CPreprocessor.Proofs.Lexing.Words
import CPreprocessor.Proofs.Run.Passing

namespace CPreprocessor

variable (setup : Setup) (check : Reader → Bool)

/-- The token that is pulled in `n` steps. -/
def Reader.pullIn : Nat → Reader → Option (Token × Reader)
  | 0, _ => none
  | n + 1, r =>
    if check r then
      match r.step setup with
      | .give token next => some (token, next)
      | .goOn next => pullIn n next
    else
      none

namespace Preprocessor

def gatherIn : Nat → Nat → Reader → Option (List Token × Reader)
  | 0, _, _ => none
  | n + 1, depth, r => do
    let pulled ← r.pullIn setup check n
    match Arguments.depthAfter depth [pulled.1] with
    | none => some ([pulled.1], pulled.2)
    | some depth =>
      let more ← gatherIn n depth pulled.2
      some (pulled.1 :: more.1, more.2)

def gatherFromIn (n : Nat) (opening : Token) (inner : List Token) (r : Reader) :
    Option (List Token × Reader) :=
  match if opening.isOpen then Arguments.depthAfter 0 inner else none with
  | none => some (opening :: inner, r)
  | some depth => do
    let more ← gatherIn setup check n depth r
    some (opening :: (inner ++ more.1), more.2)

def gatherCallIn (n : Nat) (r : Reader) : List Token → Option (List Token × Reader)
  | opening :: inner => gatherFromIn setup check n opening inner r
  | [] => do
    let pulled ← r.pullIn setup check n
    gatherFromIn setup check n pulled.1 [] pulled.2

def headIn (n : Nat) (m : Macro) (site : Token) (p : Preprocessor) : Option (Head × Reader) :=
  if m.isFunctionLike then do
    let gathered ← gatherCallIn setup check n p.reader p.pending
    some (Head.ofMacro m site gathered.1, gathered.2)
  else
    some (Head.ofMacro m site p.pending, p.reader)

def takeIn (n : Nat) (p : Preprocessor) : Option (Token × Preprocessor) :=
  match p.pending with
  | token :: pending => some (token, { p with pending })
  | [] => do
    let pulled ← p.reader.pullIn setup check n
    some (pulled.1, { p with reader := pulled.2 })

def expandNextIn : Nat → Preprocessor → Option (Token × Preprocessor)
  | 0, _ => none
  | n + 1, p => do
    let taken ← takeIn setup check n p
    match Head.called? taken.2.reader.session.macros taken.1 with
    | none => some taken
    | some m =>
      let head ← headIn setup check n m taken.1 taken.2
      match head.1 with
      | .plain _ rest => some (taken.1, { reader := head.2, pending := rest })
      | .builtin kind _ rest =>
        let done := Expansion.expandBuiltin (context setup head.2) kind taken.1
          head.2.session.expansion
        some (done.1, { reader := withExpansion head.2 done.2, pending := rest })
      | .rejected code _ rest =>
        some (taken.1, { reader := head.2.report taken.1 code taken.1.lexeme, pending := rest })
      | .call c => expandNextIn n (replaceCall setup head.2 c)

def readOperandIn (n : Nat) (keyword : Token) (p : Preprocessor) :
    Option (Option PragmaOperand × Preprocessor) := do
  let opening ← expandNextIn setup check n p
  if opening.1.isOpen then
    let literal ← expandNextIn setup check n opening.2
    let close ← expandNextIn setup check n literal.2
    some (closeOperand keyword opening.1 literal.1 close)
  else
    some (none, opening.2.pushBack [opening.1])

variable (accepts : List Token → Bool)

/-- The next token in `n` steps, in a run that goes on after errors. -/
def nextIn : Nat → Preprocessor → Option (Token × Preprocessor)
  | 0, _ => none
  | n + 1, p =>
    if p.isAborted then
      some p.finish
    else do
      let expanded ← expandNextIn setup check n p
      if startsPragma expanded.1 then
        if expanded.2.isAborted then
          some expanded.2.finish
        else
          let read ← readOperandIn setup check n expanded.1 expanded.2
          match read.1 with
          | none => some (expanded.1, read.2)
          | some operand =>
            if (pragmaTokens setup expanded.1 operand.literal).toOption.all accepts then
              let applied := read.2.applyPragma setup expanded.1 operand.literal
              if applied.1 then
                some (give (verbatim expanded.1) (applied.2.passOperand operand))
              else
                nextIn n applied.2
            else
              none
      else
        some (give expanded.1 expanded.2)

/-- All tokens of a run that goes on after errors, in `n` steps. -/
def play : Nat → Preprocessor → Option (List Token × Preprocessor)
  | 0, _ => none
  | n + 1, p => do
    let found ← nextIn setup check accepts n p
    if found.1.isEnd then
      some ([found.1], found.2)
    else
      let more ← play n found.2
      some (found.1 :: more.1, more.2)

end Preprocessor

variable {setup check} {accepts : List Token → Bool} {n : Nat} {r : Reader}

theorem Reader.pull_of_pullIn {done : Token × Reader} (found : r.pullIn setup check n = some done) :
    r.pull setup = done ∧ ∀ passed, r.Passes setup passed → check passed = true := by
  induction n generalizing r with
  | zero => cases found
  | succ n ih =>
    rw [pullIn] at found
    split at found
    · rename_i holds
      cases stepped : r.step setup with
      | give token next =>
        rw [stepped] at found
        cases found
        refine ⟨pull_of_give stepped, fun passed run => ?_⟩
        cases run with
        | here => exact holds
        | later stepped' more => cases stepped.symm.trans stepped'
      | goOn next =>
        rw [stepped] at found
        obtain ⟨same, passes⟩ := ih found
        refine ⟨(pull_of_goOn stepped).trans same, fun passed run => ?_⟩
        cases run with
        | here => exact holds
        | later stepped' more =>
          cases stepped.symm.trans stepped'
          exact passes passed more
    · cases found

namespace Preprocessor

variable {p : Preprocessor} {keyword : Token}

theorem gather_of_gatherIn {depth : Nat} {done : List Token × Reader}
    (found : gatherIn setup check n depth r = some done) :
    gather setup depth r = done ∧ ∀ passed, GatherPasses setup depth r passed → check passed = true := by
  induction n generalizing depth r done with
  | zero => cases found
  | succ n ih =>
    obtain ⟨pulled, inTime, found⟩ := Option.bind_eq_some_iff.mp found
    obtain ⟨rfl, passes⟩ := Reader.pull_of_pullIn inTime
    cases after : Arguments.depthAfter depth [(r.pull setup).1] with
    | none =>
      rw [after] at found
      cases found
      refine ⟨gather_of_none after, fun passed run => ?_⟩
      cases run with
      | pulling run => exact passes passed run
      | later goesOn => cases after.symm.trans goesOn
    | some inner =>
      rw [after] at found
      obtain ⟨more, later, found⟩ := Option.bind_eq_some_iff.mp found
      cases found
      obtain ⟨rfl, passesLater⟩ := ih later
      refine ⟨gather_of_some after, fun passed run => ?_⟩
      cases run with
      | pulling run => exact passes passed run
      | later goesOn more =>
        cases after.symm.trans goesOn
        exact passesLater passed more

/-- What is gathered after an opening parenthesis. -/
theorem gatherFrom_of_gatherFromIn {opening : Token} {inner : List Token} {done : List Token × Reader}
    (found : gatherFromIn setup check n opening inner r = some done) :
    gatherFrom setup opening inner r = done
      ∧ ∀ depth, opening.isOpen = true → Arguments.depthAfter 0 inner = some depth →
        ∀ passed, GatherPasses setup depth r passed → check passed = true := by
  unfold gatherFromIn at found
  unfold gatherFrom
  cases call : if opening.isOpen then Arguments.depthAfter 0 inner else none with
  | none =>
    rw [call] at found
    cases found
    refine ⟨rfl, fun depth isOpen unclosed => ?_⟩
    rw [isOpen, if_pos rfl, unclosed] at call
    cases call
  | some depth =>
    rw [call] at found
    obtain ⟨more, later, found⟩ := Option.bind_eq_some_iff.mp found
    cases found
    obtain ⟨rfl, passes⟩ := gather_of_gatherIn later
    refine ⟨rfl, fun depth' isOpen unclosed => ?_⟩
    rw [isOpen, if_pos rfl, unclosed] at call
    cases call
    exact passes

theorem gatherCall_of_gatherCallIn {tokens : List Token} {done : List Token × Reader}
    (found : gatherCallIn setup check n r tokens = some done) :
    gatherCall setup r tokens = done
      ∧ ∀ passed, CallPasses setup tokens r passed → check passed = true := by
  cases tokens with
  | cons opening inner =>
    obtain ⟨same, passes⟩ := gatherFrom_of_gatherFromIn found
    refine ⟨same, fun passed run => ?_⟩
    cases run with
    | pending isOpen unclosed gathered => exact passes _ isOpen unclosed passed gathered
  | nil =>
    obtain ⟨pulled, inTime, found⟩ := Option.bind_eq_some_iff.mp found
    obtain ⟨rfl, pullPasses⟩ := Reader.pull_of_pullIn inTime
    obtain ⟨same, passes⟩ := gatherFrom_of_gatherFromIn found
    refine ⟨same, fun passed run => ?_⟩
    cases run with
    | pulling run => exact pullPasses passed run
    | pulled isOpen gathered => exact passes 0 isOpen rfl passed gathered

theorem head_of_headIn {m : Macro} {site : Token} {done : Head × Reader}
    (found : headIn setup check n m site p = some done) :
    headOfMacro setup m site p = done
      ∧ (m.isFunctionLike = true →
        ∀ passed, CallPasses setup p.pending p.reader passed → check passed = true) := by
  unfold headIn at found
  unfold headOfMacro
  split at found
  · rename_i isCall
    obtain ⟨gathered, inTime, found⟩ := Option.bind_eq_some_iff.mp found
    cases found
    obtain ⟨rfl, passes⟩ := gatherCall_of_gatherCallIn inTime
    exact ⟨if_pos isCall, fun _ => passes⟩
  · rename_i noCall
    cases found
    exact ⟨if_neg noCall, fun isCall => absurd isCall noCall⟩

theorem take_of_takeIn {done : Token × Preprocessor} (found : takeIn setup check n p = some done) :
    p.take setup = done
      ∧ (p.pending = [] → ∀ passed, p.reader.Passes setup passed → check passed = true) := by
  unfold takeIn at found
  unfold take
  cases waiting : p.pending with
  | cons token pending =>
    rw [waiting] at found
    cases found
    exact ⟨rfl, nofun⟩
  | nil =>
    rw [waiting] at found
    obtain ⟨pulled, inTime, found⟩ := Option.bind_eq_some_iff.mp found
    cases found
    obtain ⟨rfl, passes⟩ := Reader.pull_of_pullIn inTime
    exact ⟨rfl, fun _ => passes⟩

theorem expandNext_of_expandNextIn {done : Token × Preprocessor}
    (found : expandNextIn setup check n p = some done) :
    p.expandNext setup = done ∧ ∀ passed, ExpandPasses setup p passed → check passed = true := by
  induction n generalizing p with
  | zero => cases found
  | succ n ih =>
    obtain ⟨⟨site, q⟩, inTime, found⟩ := Option.bind_eq_some_iff.mp found
    obtain ⟨taken, takePasses⟩ := take_of_takeIn inTime
    -- The readers that are passed, given those that are passed when the token calls a macro.
    have passes (calls : ∀ m, Head.called? q.reader.session.macros site = some m → ∀ passed,
          m.isFunctionLike = true ∧ CallPasses setup q.pending q.reader passed
            ∨ (∃ c r, headOfMacro setup m site q = (.call c, r)
              ∧ ExpandPasses setup (replaceCall setup r c) passed) → check passed = true) :
        ∀ passed, ExpandPasses setup p passed → check passed = true := by
      intro passed run
      cases run with
      | taking nothing pulled => exact takePasses nothing passed pulled
      | gathering taken' called isCall gathered =>
        cases taken.symm.trans taken'
        exact calls _ called passed (.inl ⟨isCall, gathered⟩)
      | again taken' called head more =>
        cases taken.symm.trans taken'
        exact calls _ called passed (.inr ⟨_, _, head, more⟩)
    cases called : Head.called? q.reader.session.macros site with
    | none =>
      simp only [called, Option.some.injEq] at found
      refine ⟨(expandNext_of_none taken called).trans found, passes fun m isCalled => ?_⟩
      rw [called] at isCalled
      cases isCalled
    | some m =>
      simp only [called] at found
      obtain ⟨⟨head, r⟩, headInTime, found⟩ := Option.bind_eq_some_iff.mp found
      obtain ⟨same, headPasses⟩ := head_of_headIn headInTime
      rw [expandNext_of_some taken called, same]
      have passes (calls : ∀ c, head = .call c → ∀ passed,
            ExpandPasses setup (replaceCall setup r c) passed → check passed = true) :
          ∀ passed, ExpandPasses setup p passed → check passed = true := by
        refine passes fun m' isCalled passed run => ?_
        cases called.symm.trans isCalled
        obtain ⟨isCall, gathered⟩ | ⟨c, r', head', more⟩ := run
        · exact headPasses isCall passed gathered
        · cases same.symm.trans head'
          exact calls c rfl passed more
      cases head with
      | plain _ rest =>
        exact ⟨Option.some.inj found, passes fun c isCall => Head.noConfusion isCall⟩
      | builtin kind _ rest =>
        exact ⟨Option.some.inj found, passes fun c isCall => Head.noConfusion isCall⟩
      | rejected code _ rest =>
        exact ⟨Option.some.inj found, passes fun c isCall => Head.noConfusion isCall⟩
      | call c =>
        obtain ⟨later, laterPasses⟩ := ih found
        refine ⟨later, passes fun c' isCall => ?_⟩
        cases isCall
        exact laterPasses

theorem readOperand_of_readOperandIn {done : Option PragmaOperand × Preprocessor}
    (found : readOperandIn setup check n keyword p = some done) :
    p.readOperand setup keyword = done
      ∧ ∀ passed, OperandPasses setup p passed → check passed = true := by
  obtain ⟨opening, inTime, found⟩ := Option.bind_eq_some_iff.mp found
  obtain ⟨rfl, passes⟩ := expandNext_of_expandNextIn inTime
  split at found
  · rename_i isOpen
    obtain ⟨literal, inTime, found⟩ := Option.bind_eq_some_iff.mp found
    obtain ⟨rfl, passesLiteral⟩ := expandNext_of_expandNextIn inTime
    obtain ⟨close, inTime, found⟩ := Option.bind_eq_some_iff.mp found
    obtain ⟨rfl, passesClose⟩ := expandNext_of_expandNextIn inTime
    cases found
    refine ⟨readOperand_of_isOpen keyword isOpen, fun passed run => ?_⟩
    cases run with
    | opening run => exact passes passed run
    | literal _ run => exact passesLiteral passed run
    | close _ run => exact passesClose passed run
  · rename_i closed
    rw [Bool.not_eq_true] at closed
    cases found
    refine ⟨readOperand_of_not_isOpen keyword closed, fun passed run => ?_⟩
    cases run with
    | opening run => exact passes passed run
    | literal isOpen => cases closed.symm.trans isOpen
    | close isOpen => cases closed.symm.trans isOpen

section Lenient

variable (lenient : setup.config.failFast = false)
include lenient

theorem checkAbort_of_lenient (p : Preprocessor) : p.checkAbort setup = p := by
  rw [checkAbort, Reader.checkAbort_of_lenient lenient]

/-- The readers that are passed while the next token is found, in a run that goes on after errors. -/
theorem NextPasses.of_lenient {passed : Reader} (run : NextPasses setup p passed) :
    p.isAborted = false ∧ (ExpandPasses setup p passed
      ∨ startsPragma (p.expandNext setup).1 = true ∧ (p.expandNext setup).2.isAborted = false
        ∧ (OperandPasses setup (p.expandNext setup).2 passed
          ∨ ∃ operand after done,
            (p.expandNext setup).2.readOperand setup (p.expandNext setup).1 = (some operand, after)
              ∧ after.applyPragma setup (p.expandNext setup).1 operand.literal = (false, done)
              ∧ NextPasses setup done passed)) := by
  have same := checkAbort_of_lenient lenient (p.expandNext setup).2
  cases run with
  | expanding running run => exact ⟨running, .inl run⟩
  | operand running expanded starts goesOn run =>
    obtain rfl := expanded.symm.trans same
    exact ⟨running, .inr ⟨starts, goesOn, .inl run⟩⟩
  | again running expanded starts goesOn read applied more =>
    obtain rfl := expanded.symm.trans same
    exact ⟨running, .inr ⟨starts, goesOn, .inr ⟨_, _, _, read, applied, more⟩⟩⟩

/-- What comes of a pragma operator. -/
theorem next_of_operator_of_lenient (running : ¬p.isAborted = true)
    (starts : startsPragma (p.expandNext setup).1 = true)
    (goesOn : ¬(p.expandNext setup).2.isAborted = true) :
    p.next setup = afterOperand setup (p.expandNext setup).1
      ((p.expandNext setup).2.readOperand setup (p.expandNext setup).1) := by
  have same := checkAbort_of_lenient lenient (p.expandNext setup).2
  rw [next_of_operator running starts (by rwa [same]), same]

theorem next_of_nextIn {done : Token × Preprocessor}
    (found : nextIn setup check accepts n p = some done) :
    p.next setup = done ∧ ∀ passed, NextPasses setup p passed → check passed = true := by
  induction n generalizing p with
  | zero => cases found
  | succ n ih =>
    rw [nextIn] at found
    split at found
    · rename_i aborted
      cases found
      refine ⟨next_of_aborted aborted, fun passed run => ?_⟩
      cases (run.of_lenient lenient).1.symm.trans aborted
    · rename_i running
      obtain ⟨expanded, inTime, found⟩ := Option.bind_eq_some_iff.mp found
      obtain ⟨rfl, passes⟩ := expandNext_of_expandNextIn inTime
      split at found
      · rename_i starts
        split at found
        · rename_i aborted
          cases found
          refine ⟨?_, fun passed run => ?_⟩
          · rw [next_of_running running, if_pos starts, checkAbort_of_lenient lenient, if_pos aborted]
          · obtain run | ⟨-, goesOn, -⟩ := (run.of_lenient lenient).2
            · exact passes passed run
            · cases goesOn.symm.trans aborted
        · rename_i goesOn
          obtain ⟨⟨read, after⟩, inTime, found⟩ := Option.bind_eq_some_iff.mp found
          obtain ⟨isRead, passesOperand⟩ := readOperand_of_readOperandIn inTime
          rw [next_of_operator_of_lenient lenient running starts goesOn, isRead]
          have passes (later : ∀ operand done, read = some operand →
                after.applyPragma setup (p.expandNext setup).1 operand.literal = (false, done) →
                ∀ passed, NextPasses setup done passed → check passed = true) :
              ∀ passed, NextPasses setup p passed → check passed = true := by
            intro passed run
            obtain run | ⟨-, -, run | ⟨operand, after', done, read', applied, more⟩⟩ :=
              (run.of_lenient lenient).2
            · exact passes passed run
            · exact passesOperand passed run
            · cases isRead.symm.trans read'
              exact later operand done rfl applied passed more
          cases read with
          | none =>
            refine ⟨Option.some.inj found, passes fun operand done isOperand => ?_⟩
            cases isOperand
          | some operand =>
            simp only [Option.ite_none_right_eq_some] at found
            replace found := found.2
            simp only [afterOperand]
            cases applied : after.applyPragma setup (p.expandNext setup).1 operand.literal with
            | mk passesOn done =>
              rw [applied] at found
              cases passesOn with
              | true =>
                simp only [if_true, Option.some.injEq] at found
                simp only [checkAbort_of_lenient lenient]
                refine ⟨found, passes fun operand' done' isOperand gone => ?_⟩
                cases isOperand
                cases applied.symm.trans gone
              | false =>
                simp only [Bool.false_eq_true, if_false] at found
                obtain ⟨next, nextPasses⟩ := ih found
                refine ⟨next, passes fun operand' done' isOperand gone => ?_⟩
                cases isOperand
                cases applied.symm.trans gone
                exact nextPasses
      · rename_i plain
        cases found
        refine ⟨?_, fun passed run => ?_⟩
        · rw [next_of_plain running plain, checkAbort_of_lenient lenient]
        · obtain run | ⟨starts, -⟩ := (run.of_lenient lenient).2
          · exact passes passed run
          · exact absurd starts plain

/-- The pragma operators that are carried out while the next token is found, in a run that goes on after
errors. -/
theorem NextApplies.of_lenient {args : List Token} (run : NextApplies setup p args) :
    p.isAborted = false ∧ startsPragma (p.expandNext setup).1 = true
      ∧ (p.expandNext setup).2.isAborted = false ∧ ∃ operand after,
        (p.expandNext setup).2.readOperand setup (p.expandNext setup).1 = (some operand, after)
          ∧ (pragmaTokens setup (p.expandNext setup).1 operand.literal = .ok args
            ∨ ∃ done, after.applyPragma setup (p.expandNext setup).1 operand.literal = (false, done)
              ∧ NextApplies setup done args) := by
  have same := checkAbort_of_lenient lenient (p.expandNext setup).2
  cases run with
  | here running expanded starts goesOn read holds =>
    obtain rfl := expanded.symm.trans same
    exact ⟨running, starts, goesOn, _, _, read, .inl holds⟩
  | again running expanded starts goesOn read applied more =>
    obtain rfl := expanded.symm.trans same
    exact ⟨running, starts, goesOn, _, _, read, .inr ⟨_, applied, more⟩⟩

theorem accepts_of_nextIn {done : Token × Preprocessor}
    (found : nextIn setup check accepts n p = some done) {args : List Token}
    (run : NextApplies setup p args) : accepts args = true := by
  induction n generalizing p done with
  | zero => cases found
  | succ n ih =>
    obtain ⟨running, starts, goesOn, operand, after, isRead, run⟩ := run.of_lenient lenient
    rw [nextIn, running, if_neg Bool.false_ne_true] at found
    obtain ⟨expanded, inTime, found⟩ := Option.bind_eq_some_iff.mp found
    obtain ⟨rfl, -⟩ := expandNext_of_expandNextIn inTime
    rw [if_pos starts, goesOn, if_neg Bool.false_ne_true] at found
    obtain ⟨read, inTime, found⟩ := Option.bind_eq_some_iff.mp found
    obtain ⟨same, -⟩ := readOperand_of_readOperandIn inTime
    obtain rfl := same.symm.trans isRead
    simp only [Option.ite_none_right_eq_some] at found
    obtain ⟨accepted, found⟩ := found
    obtain holds | ⟨next, applied, more⟩ := run
    · rwa [holds] at accepted
    · rw [applied, if_neg Bool.false_ne_true] at found
      exact ih found more

/-- A run that is played through gives these tokens, and the check holds of all the readers that it
passes. -/
theorem tokensWithin_of_play {done : List Token × Preprocessor}
    (played : play setup check accepts n p = some done) :
    (∀ m, n ≤ m → p.tokensWithin setup m = done)
      ∧ ∀ passed, p.Passes setup passed → check passed = true := by
  induction n generalizing p done with
  | zero => cases played
  | succ n ih =>
    obtain ⟨found, inTime, played⟩ := Option.bind_eq_some_iff.mp played
    obtain ⟨rfl, passes⟩ := next_of_nextIn lenient inTime
    split at played
    · rename_i ends
      cases played
      refine ⟨fun m enough => ?_, fun passed run => ?_⟩
      · cases m with
        | zero => cases enough
        | succ m => rw [tokensWithin, if_pos ends]
      · cases run with
        | next run => exact passes passed run
        | later goesOn => cases goesOn.symm.trans ends
    · rename_i goesOn
      obtain ⟨more, inTime, played⟩ := Option.bind_eq_some_iff.mp played
      cases played
      obtain ⟨later, laterPasses⟩ := ih inTime
      refine ⟨fun m enough => ?_, fun passed run => ?_⟩
      · cases m with
        | zero => cases enough
        | succ m => rw [tokensWithin, if_neg goesOn, later m (Nat.le_of_succ_le_succ enough)]
      · cases run with
        | next run => exact passes passed run
        | later _ more => exact laterPasses passed more

theorem check_of_play (played : (p.play setup check accepts n).isSome = true) {passed : Reader}
    (run : p.Passes setup passed) : check passed = true := by
  obtain ⟨done, played⟩ := Option.isSome_iff_exists.mp played
  exact (tokensWithin_of_play lenient played).2 passed run

/-- The check holds of the tokens in the strings of all the pragma operators that the run carries out. -/
theorem accepts_of_play (played : (p.play setup check accepts n).isSome = true) {args : List Token}
    (run : p.Applies setup args) : accepts args = true := by
  induction n generalizing p with
  | zero => cases played
  | succ n ih =>
    obtain ⟨done, played⟩ := Option.isSome_iff_exists.mp played
    obtain ⟨found, inTime, played⟩ := Option.bind_eq_some_iff.mp played
    cases run with
    | next run => exact accepts_of_nextIn lenient inTime run
    | later goesOn more =>
      obtain ⟨rfl, -⟩ := next_of_nextIn lenient inTime
      rw [if_neg (by rw [goesOn]; exact Bool.false_ne_true)] at played
      obtain ⟨rest, later, -⟩ := Option.bind_eq_some_iff.mp played
      exact ih (Option.isSome_iff_exists.mpr ⟨rest, later⟩) more

theorem words_of_play {words : List (TokenKind × Text)}
    (played : (p.play setup (fun _ => true) (fun _ => true) n).map (fun done => done.1.map Token.word)
      = some words) :
    (p.tokensWithin setup n).1.map Token.word = words := by
  obtain ⟨done, played, same⟩ := Option.map_eq_some_iff.mp played
  rw [(tokensWithin_of_play lenient played).1 n (Nat.le_refl n), same]

end Lenient

end Preprocessor

end CPreprocessor
