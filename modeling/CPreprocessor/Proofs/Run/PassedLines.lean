/-
# Directives that are passed on

The tokens of a directive that is passed on wait before anything else that is read, so they are
given one after the other (`Waits.givesLine`). They are written on a line of their own: the hash is at
the start of a line, and so is what follows, unless the first token of the line after it is lost
(`LosesFirst`), in a macro call that is replaced by nothing or in a pragma operator that is
carried out. Only where a directive is read for the arguments of a call or for an operand
(`ReadsInside`), its tokens become part of these (`passed_line`).
-/
import CPreprocessor.Proofs.Lexing.Printer
import CPreprocessor.Proofs.Run.LineStarts
import CPreprocessor.Proofs.Run.Shape

namespace CPreprocessor

/-! ## Tokens that wait -/

/-- The next step carries out a directive that is to be passed on, and the run goes on. -/
structure Reader.PassesOn (setup : Setup) (r : Reader) (d : Directive) (next : Reader) : Prop where
  here : ∃ frame outer after, r.frames = frame :: outer ∧ frame.lexer.item = (.directive d, after)
  passed : (d.execute setup r.place r.session).1 = .pass
  stepped : r.step setup = .goOn next
  running : next.status ≠ .aborted

namespace Preprocessor

variable {setup : Setup} {p q x : Preprocessor} {d : Directive} {token : Token} {tokens : List Token}

/-- These tokens are all that waits before the files are read on. The files are at the ends of lines,
and the run goes on. -/
structure Waits (setup : Setup) (tokens : List Token) (p : Preprocessor) : Prop where
  waiting : p.pending ++ p.reader.queued = tokens.map verbatim
  running : p.isAborted = false
  settled : p.IsSettled setup
  lines : ∀ frame ∈ p.reader.frames, frame.lexer.EndsLine

/-- A directive that is passed on waits. -/
theorem waits_of_passesOn {r next : Reader} (onLines : r.OnLines) (passed : r.PassesOn setup d next) :
    Waits setup d.tokens { reader := next } ∧ d.IsLine ∧ Inside d.tokens := by
  obtain ⟨frame, outer, after, isOpen, here⟩ := passed.here
  have what := r.stepped setup
  rw [passed.stepped] at what
  have known {frame' : Frame} {outer' : List Frame} (isOpen' : r.frames = frame' :: outer') :
      frame = frame' ∧ outer = outer' := by
    rw [isOpen, List.cons.injEq] at isOpen'
    exact isOpen'
  cases what with
  | closes idle isOpen' running here' =>
    obtain ⟨rfl, rfl⟩ := known isOpen'
    rw [here] at here'
    cases here'
  | passesOver idle isOpen' running here' dead =>
    obtain ⟨rfl, rfl⟩ := known isOpen'
    rw [here] at here'
    cases here'
  | carriesOut idle isOpen' running here' =>
    obtain ⟨rfl, rfl⟩ := known isOpen'
    rw [here] at here'
    cases here'
    have ends : ∀ f ∈ outer, f.lexer.EndsLine := by
      have tail := onLines.outer
      rwa [isOpen] at tail
    obtain ⟨line, atEnd⟩ := (onLines.bare frame (isOpen ▸ List.mem_cons_self)).directive here
    refine ⟨⟨?_, by simpa [isAborted] using passed.running, isSettled_checkAbort ⟨_, []⟩, ?_⟩, line,
      Lexer.inside_tokens_of_item here⟩
    · rw [List.nil_append, Reader.afterDirective, passed.passed, Reader.queued_checkAbort, Reader.act, idle]
      rfl
    · rw [Reader.afterDirective, passed.passed, Reader.frames_checkAbort]
      exact List.forall_mem_cons.mpr ⟨atEnd, ends⟩

/-- A token that waits is the next one that is taken. -/
theorem Waits.take (waits : Waits setup (token :: tokens) p) :
    (p.take setup).1 = verbatim token ∧ Waits setup tokens (p.take setup).2 := by
  cases pending : p.pending with
  | cons first rest =>
    have taken : p.take setup = (first, { p with pending := rest }) := by
      rw [Preprocessor.take, pending]
    have waiting := waits.waiting
    rw [pending, List.cons_append, List.map_cons, List.cons.injEq] at waiting
    rw [taken]
    exact ⟨waiting.1, waiting.2, waits.running, waits.settled, waits.lines⟩
  | nil =>
    have waiting := waits.waiting
    rw [pending, List.nil_append, List.map_cons] at waiting
    have stepped : p.reader.step setup
        = .give (verbatim token) { p.reader with queued := tokens.map verbatim } := by
      rw [Reader.step, waiting]
    have taken : p.take setup = (verbatim token,
        { p with reader := { p.reader with queued := tokens.map verbatim } }) := by
      rw [Preprocessor.take, pending, Reader.pull_of_give stepped]
    rw [taken]
    refine ⟨rfl, ?_, waits.running, waits.settled, waits.lines⟩
    rw [pending, List.nil_append]

/-- A token that is not expanded because it is part of what is passed on. -/
theorem expandNext_of_verbatim (taken : p.take setup = (verbatim token, q)) :
    p.expandNext setup = (verbatim token, q) :=
  expandNext_of_none taken rfl

theorem not_startsPragma_verbatim (token : Token) : ¬startsPragma (verbatim token) = true := by
  simp [startsPragma, verbatim]

/-- A token before others that wait is given when it is expanded, unless it starts a pragma
operator. -/
theorem Waits.next_of_plain (waits : Waits setup tokens q) (running : p.isAborted = false)
    (expanded : p.expandNext setup = (token, q)) (plain : ¬startsPragma token = true) :
    p.next setup = (token, q) := by
  rw [Preprocessor.next_of_plain (by simp [running]) (by rwa [expanded]), expanded,
    checkAbort_of_isSettled waits.settled, give, if_neg (by simp [waits.running])]

/-- A token that waits is given. -/
theorem Waits.next (waits : Waits setup (token :: tokens) p) :
    (p.next setup).1 = verbatim token ∧ Waits setup tokens (p.next setup).2 := by
  obtain ⟨first, later⟩ := waits.take
  have expanded := expandNext_of_verbatim (Prod.ext first rfl)
  rw [later.next_of_plain waits.running expanded (not_startsPragma_verbatim token)]
  exact ⟨rfl, later⟩

/-- A token that is given back waits again. -/
theorem Waits.pushBack (waits : Waits setup tokens p) (token : Token) :
    Waits setup (token :: tokens) (p.pushBack [verbatim token]) := by
  refine ⟨?_, waits.running, waits.settled, waits.lines⟩
  rw [List.map_cons, ← waits.waiting]
  rfl

/-- These tokens are given one after the other, and after that nothing waits. -/
structure GivesLine (setup : Setup) (tokens : List Token) (p : Preprocessor) : Prop where
  given : ∀ k (small : k < tokens.length), p.given setup k = verbatim tokens[k]
  after : Waits setup [] (p.afterCalls setup tokens.length)

theorem GivesLine.cons (first : (p.next setup).1 = verbatim token)
    (more : GivesLine setup tokens (p.next setup).2) : GivesLine setup (token :: tokens) p := by
  have after := more.after
  rw [afterCalls_next] at after
  refine ⟨fun k small => ?_, after⟩
  cases k with
  | zero => exact first
  | succ k =>
    exact (given_next setup p k).symm.trans (more.given k (Nat.lt_of_succ_lt_succ small))

/-- The tokens that wait are given one after the other. -/
theorem Waits.givesLine (waits : Waits setup tokens p) : GivesLine setup tokens p := by
  induction tokens generalizing p with
  | nil => exact ⟨fun k small => absurd small (Nat.not_lt_zero k), waits⟩
  | cons token tokens ih => exact .cons waits.next.1 (ih waits.next.2)

/-! ## Lines after a directive -/

/-- While the next token is looked for, the first one of its line is lost: it calls a macro that is
replaced by nothing, or it starts a pragma operator that is carried out. -/
inductive LosesFirst (setup : Setup) : Preprocessor → Prop where
  | nothing {p q : Preprocessor} {site : Token} {m : Macro} {c : Call} {r : Reader}
      (taken : p.take setup = (site, q)) (called : Head.called? q.reader.session.macros site = some m)
      (found : headOfMacro setup m site q = (.call c, r))
      (empty : (Expansion.expandCall (context setup r) c r.session.expansion).1 = []) :
      LosesFirst setup p
  | later {p q : Preprocessor} {site : Token} {m : Macro} {c : Call} {r : Reader}
      (taken : p.take setup = (site, q)) (called : Head.called? q.reader.session.macros site = some m)
      (found : headOfMacro setup m site q = (.call c, r)) (more : LosesFirst setup (replaceCall setup r c)) :
      LosesFirst setup p
  | operator {p q done : Preprocessor} {operand : PragmaOperand}
      (starts : startsPragma (p.expandNext setup).1 = true)
      (read : ((p.expandNext setup).2.checkAbort setup).readOperand setup (p.expandNext setup).1
        = (some operand, q))
      (applied : q.applyPragma setup (p.expandNext setup).1 operand.literal = (false, done)) :
      LosesFirst setup p

/-- The token that is taken next is the first one of a line. -/
def StartsLine (p : Preprocessor) : Prop :=
  match p.pending with
  | [] => p.reader.StartsLine
  | token :: _ => token.atLineStart = true ∨ token.isEnd = true

theorem StartsLine.take (setup : Setup) (starts : p.StartsLine) :
    (p.take setup).1.atLineStart = true ∨ (p.take setup).1.isEnd = true := by
  unfold StartsLine at starts
  unfold Preprocessor.take
  split at starts
  · rename_i nothing
    rw [nothing]
    exact Reader.StartsLine.pull setup starts
  · rename_i waiting
    rw [waiting]
    exact starts

theorem site_of_ofMacro {site : Token} {m : Macro} {rest : List Token} {c : Call}
    (head : .call c = Head.ofMacro m site rest) : c.site = site := by
  unfold Head.ofMacro at head
  repeat' split at head
  all_goals cases head <;> rfl

/-- What replaces a call starts a line as the call did. -/
theorem startsLine_replaceCall {c : Call} (starts : c.site.atLineStart = true) {r : Reader}
    (more : (Expansion.expandCall (context setup r) c r.session.expansion).1 ≠ []) :
    (replaceCall setup r c).StartsLine := by
  have pending : (replaceCall setup r c).pending
      = (Expansion.expandCall (context setup r) c r.session.expansion).1 ++ c.rest := rfl
  unfold StartsLine
  rw [pending]
  unfold Expansion.expandCall at more ⊢
  simp only [] at more ⊢
  generalize (Substitution.run _ _ _ _ _).result = body at more ⊢
  cases body with
  | nil => exact absurd rfl more
  | cons token body => exact .inl starts

/-- The next expanded token is the first one of its line, unless that one is lost. -/
theorem StartsLine.expandNext (setup : Setup) (starts : p.StartsLine) :
    (p.expandNext setup).1.atLineStart = true ∨ (p.expandNext setup).1.isEnd = true
      ∨ p.LosesFirst setup := by
  fun_induction Preprocessor.expandNext setup p with
  | case1 p site q taken stays =>
    have first := starts.take setup
    rw [taken] at first
    exact first.imp_right .inl
  | case2 p site q taken m called token rest r found =>
    have first := starts.take setup
    rw [taken] at first
    exact first.imp_right .inl
  | case3 p site q taken m called kind token rest r found done =>
    have first := starts.take setup
    rw [taken] at first
    exact .inl (first.resolve_right (by simp [Head.isEnd_of_called? called]))
  | case4 p site q taken m called code token rest r found =>
    have first := starts.take setup
    rw [taken] at first
    exact first.imp_right .inl
  | case5 p site q taken m called c r found ih =>
    have first := starts.take setup
    rw [taken] at first
    have atStart := first.resolve_right (by simp [Head.isEnd_of_called? called])
    by_cases empty : (Expansion.expandCall (context setup r) c r.session.expansion).1 = []
    · exact .inr (.inr (.nothing taken called found empty))
    · obtain ⟨rest, head, -⟩ := head_of_headOfMacro found
      exact (ih (startsLine_replaceCall (site_of_ofMacro head ▸ atStart) empty)).imp_right
        (Or.imp_right (.later taken called found))

/-- The next token is the first one of its line, unless that one is lost. -/
theorem StartsLine.next (setup : Setup) (starts : p.StartsLine) :
    (p.next setup).1.atLineStart = true ∨ (p.next setup).1.isEnd = true ∨ p.LosesFirst setup := by
  have expanded := starts.expandNext setup
  have ended (q : Preprocessor) : q.finish.1.isEnd = true := q.finish_facts.1
  have given {token : Token} (q : Preprocessor)
      (first : token.atLineStart = true ∨ token.isEnd = true ∨ p.LosesFirst setup) :
      (give token q).1.atLineStart = true ∨ (give token q).1.isEnd = true ∨ p.LosesFirst setup := by
    unfold give
    split
    · exact .inr (.inl (ended q))
    · exact first
  by_cases aborted : p.isAborted = true
  · rw [next_of_aborted aborted]
    exact .inr (.inl (ended p))
  · by_cases starts : startsPragma (p.expandNext setup).1 = true
    · by_cases asked : ((p.expandNext setup).2.checkAbort setup).isAborted = true
      · rw [next_of_running aborted, if_pos starts, if_pos asked]
        exact .inr (.inl (ended _))
      · rw [next_of_operator aborted starts asked]
        generalize read : ((p.expandNext setup).2.checkAbort setup).readOperand setup
          (p.expandNext setup).1 = result
        obtain ⟨operand, q⟩ := result
        cases operand with
        | none => exact expanded
        | some operand =>
          generalize applied : q.applyPragma setup (p.expandNext setup).1 operand.literal = done
          obtain ⟨passed, done⟩ := done
          cases passed with
          | false => exact .inr (.inr (.operator starts read applied))
          | true =>
            rw [afterOperand, applied]
            exact given _ expanded
    · rw [next_of_plain aborted starts]
      exact given _ expanded

/-! ## Where a directive is met -/

/-- While a token is expanded, calls are replaced until the second state is reached. -/
inductive Expands (setup : Setup) : Preprocessor → Preprocessor → Prop where
  | here (p : Preprocessor) : Expands setup p p
  | later {p q x : Preprocessor} {site : Token} {m : Macro} {c : Call} {r : Reader}
      (taken : p.take setup = (site, q)) (called : Head.called? q.reader.session.macros site = some m)
      (found : headOfMacro setup m site q = (.call c, r)) (more : Expands setup (replaceCall setup r c) x) :
      Expands setup p x

theorem Expands.expandNext_eq (run : p.Expands setup x) : p.expandNext setup = x.expandNext setup := by
  induction run with
  | here p => rfl
  | later taken called found _ ih =>
    rw [expandNext_of_some taken called, found]
    exact ih

/-- While the next token is found, calls are replaced and pragma operators are carried out until the
second state is reached. -/
inductive Finds (setup : Setup) : Preprocessor → Preprocessor → Prop where
  | expanding {p x : Preprocessor} (expanded : p.Expands setup x) : Finds setup p x
  | later {p q done x : Preprocessor} {operand : PragmaOperand} (running : p.isAborted = false)
      (starts : startsPragma (p.expandNext setup).1 = true)
      (goesOn : ((p.expandNext setup).2.checkAbort setup).isAborted = false)
      (read : ((p.expandNext setup).2.checkAbort setup).readOperand setup (p.expandNext setup).1
        = (some operand, q))
      (applied : q.applyPragma setup (p.expandNext setup).1 operand.literal = (false, done))
      (more : Finds setup done x) : Finds setup p x

/-- The reader is passed inside of a call or of a pragma operator: for the arguments of the call, for
the operand of the operator, or for a name in the place of the operand, which may call a macro. -/
inductive ReadsInside (setup : Setup) (p : Preprocessor) (passed : Reader) : Prop where
  | arguments {q : Preprocessor} {site : Token} {m : Macro} (taken : p.take setup = (site, q))
      (called : Head.called? q.reader.session.macros site = some m) (isCall : m.isFunctionLike = true)
      (isOpen : (q.take setup).1.isOpen = true)
      (gathered : CallPasses setup q.pending q.reader passed) : ReadsInside setup p passed
  | operand {q : Preprocessor} (expanded : (p.expandNext setup).2.checkAbort setup = q)
      (starts : startsPragma (p.expandNext setup).1 = true)
      (isOpen : (q.expandNext setup).1.isOpen = true) (read : OperandPasses setup q passed) :
      ReadsInside setup p passed
  | name {q x y : Preprocessor} {site : Token} {m : Macro}
      (expanded : (p.expandNext setup).2.checkAbort setup = q)
      (starts : startsPragma (p.expandNext setup).1 = true) (reached : q.Expands setup x)
      (taken : x.take setup = (site, y)) (called : Head.called? y.reader.session.macros site = some m)
      (isCall : m.isFunctionLike = true) (gathered : CallPasses setup y.pending y.reader passed) :
      ReadsInside setup p passed

/-- A reader that is passed while a token is expanded is passed while a token is taken, or while what
follows the name of a macro is read. -/
theorem exists_expands {passed : Reader} (run : ExpandPasses setup p passed) :
    ∃ x, p.Expands setup x ∧ ((x.pending = [] ∧ x.reader.Passes setup passed)
      ∨ ∃ q site m, x.take setup = (site, q) ∧ Head.called? q.reader.session.macros site = some m
        ∧ m.isFunctionLike = true ∧ CallPasses setup q.pending q.reader passed) := by
  induction run with
  | taking nothing pulled => exact ⟨_, .here _, .inl ⟨nothing, pulled⟩⟩
  | gathering taken called isCall gathered =>
    exact ⟨_, .here _, .inr ⟨_, _, _, taken, called, isCall, gathered⟩⟩
  | again taken called found _ ih =>
    obtain ⟨x, reached, met⟩ := ih
    exact ⟨x, .later taken called found reached, met⟩

/-- Without a parenthesis after it, the name of a function-like macro is no call. -/
theorem ofMacro_of_closed (site : Token) {m : Macro} (isCall : m.isFunctionLike = true)
    (closed : token.isOpen = false) (rest : List Token) :
    Head.ofMacro m site (token :: rest) = .plain site (token :: rest) := by
  unfold Macro.isFunctionLike at isCall
  unfold Head.ofMacro
  cases replacement : m.replacement with
  | builtin kind =>
    rw [replacement] at isCall
    cases isCall
  | object body =>
    rw [replacement] at isCall
    cases isCall
  | function parameters body =>
    simp only [closed, Bool.false_eq_true, if_false]

section Passed

variable {r next : Reader} (stepped : r.step setup = .goOn next)
  (waits : Waits setup (token :: tokens) { reader := next })
include stepped waits

/-- Where a directive is passed on while a token is taken, its first token is taken. -/
theorem take_of_passes (nothing : p.pending = []) (run : p.reader.Passes setup r) :
    ∃ q, p.take setup = (verbatim token, q) ∧ Waits setup tokens q ∧ q.pending = [] := by
  have pulled : p.reader.pull setup = next.pull setup := run.pull_eq.trans (Reader.pull_of_goOn stepped)
  have taken : p.take setup = ({ reader := next } : Preprocessor).take setup := by
    unfold take
    rw [nothing, pulled]
  obtain ⟨first, later⟩ := waits.take
  exact ⟨_, taken.trans (Prod.ext first rfl), later, rfl⟩

/-- Where a directive is passed on while the token after the name of a macro is looked at, the name is
not replaced, and all tokens of the directive wait. -/
theorem expandNext_of_peek {site : Token} {m : Macro} (taken : p.take setup = (site, q))
    (called : Head.called? q.reader.session.macros site = some m) (isCall : m.isFunctionLike = true)
    (closed : (verbatim token).isOpen = false) (nothing : q.pending = [])
    (run : q.reader.Passes setup r) :
    ∃ x, p.expandNext setup = (site, x) ∧ Waits setup (token :: tokens) x := by
  obtain ⟨later, first, waits, -⟩ := take_of_passes stepped waits nothing run
  have looked : q.take setup = ((q.reader.pull setup).1, { q with reader := (q.reader.pull setup).2 }) := by
    unfold take
    rw [nothing]
  rw [looked] at first
  obtain ⟨pulled, rfl⟩ := Prod.mk.inj first
  have gathered : gatherCall setup q.reader q.pending = ([verbatim token], (q.reader.pull setup).2) := by
    rw [nothing, gatherCall, gatherFrom, pulled, if_neg (by simp [closed])]
  have found : headOfMacro setup m site q
      = (.plain site [verbatim token], (q.reader.pull setup).2) := by
    rw [headOfMacro, if_pos isCall, gathered]
    exact Prod.ext (ofMacro_of_closed site isCall closed []) rfl
  rw [expandNext_of_some taken called, found]
  have waits := waits.pushBack token
  rw [nothing] at waits
  exact ⟨_, rfl, waits⟩

end Passed

theorem next_of_carriedOut {done : Preprocessor} {operand : PragmaOperand}
    (running : p.isAborted = false) (starts : startsPragma (p.expandNext setup).1 = true)
    (goesOn : ((p.expandNext setup).2.checkAbort setup).isAborted = false)
    (read : ((p.expandNext setup).2.checkAbort setup).readOperand setup (p.expandNext setup).1
      = (some operand, q))
    (applied : q.applyPragma setup (p.expandNext setup).1 operand.literal = (false, done)) :
    p.next setup = done.next setup := by
  rw [next_of_operator (by simp [running]) starts (by simp [goesOn]), read, afterOperand, applied]

/-- A pragma operator without a parenthesis after it is given as it is, and what was looked at waits. -/
theorem next_of_noOperand (running : p.isAborted = false)
    (starts : startsPragma (p.expandNext setup).1 = true)
    (goesOn : ((p.expandNext setup).2.checkAbort setup).isAborted = false)
    (looked : ((p.expandNext setup).2.checkAbort setup).expandNext setup = (token, q))
    (closed : token.isOpen = false) :
    p.next setup = ((p.expandNext setup).1, q.pushBack [token]) := by
  have closed : (((p.expandNext setup).2.checkAbort setup).expandNext setup).1.isOpen = false := by
    rwa [looked]
  have none := readOperand_of_not_isOpen (p.expandNext setup).1 closed
  rw [looked] at none
  rw [next_of_operator (by simp [running]) starts (by simp [goesOn]), none, afterOperand]

/-- The tokens are given next, or after one other token. -/
def GivesSoon (setup : Setup) (tokens : List Token) (p : Preprocessor) : Prop :=
  GivesLine setup tokens p ∨ (p.next setup).1.isEnd = false ∧ GivesLine setup tokens (p.next setup).2

section Passed

variable {r next : Reader} {passed : Reader}

/-- Where a directive is passed on while a token is expanded, its tokens are given next or after that
token, unless a call reads them. -/
theorem givesSoon_of_expandPasses (stepped : r.step setup = .goOn next)
    (waits : Waits setup (token :: tokens) { reader := next }) (closed : (verbatim token).isOpen = false)
    (running : p.isAborted = false) (run : ExpandPasses setup p r) :
    (∃ x, p.Expands setup x ∧ x.ReadsInside setup r) ∨ GivesSoon setup (token :: tokens) p := by
  obtain ⟨x, reached, ⟨nothing, run⟩ | ⟨q, site, m, taken, called, isCall, run⟩⟩ := exists_expands run
  · obtain ⟨q, taken, later, -⟩ := take_of_passes stepped waits nothing run
    have expanded := reached.expandNext_eq.trans (expandNext_of_verbatim taken)
    have given := later.next_of_plain running expanded (not_startsPragma_verbatim token)
    exact .inr (.inl (.cons (by rw [given]) (by rw [given]; exact later.givesLine)))
  · by_cases isOpen : (q.take setup).1.isOpen = true
    · exact .inl ⟨x, reached, .arguments taken called isCall isOpen run⟩
    · obtain ⟨nothing, run⟩ : q.pending = [] ∧ q.reader.Passes setup r := by
        unfold take at isOpen
        generalize pending : q.pending = waiting at run isOpen
        cases run with
        | pulling run => exact ⟨rfl, run⟩
        | pulled isOpen' => exact absurd isOpen' isOpen
        | pending isOpen' => exact absurd isOpen' isOpen
      obtain ⟨y, expanded, waits⟩ := expandNext_of_peek stepped waits taken called isCall closed nothing run
      have expanded := reached.expandNext_eq.trans expanded
      have noEnd := Head.isEnd_of_called? called
      by_cases starts : startsPragma site = true
      · obtain ⟨first, later⟩ := waits.take
        have settled := checkAbort_of_isSettled waits.settled
        have given := next_of_noOperand (p := p) running (by rwa [expanded])
          (by rw [expanded, settled, waits.running])
          (by rw [expanded, settled]; exact expandNext_of_verbatim (Prod.ext first rfl)) closed
        rw [expanded] at given
        exact .inr (.inr (by rw [given]; exact ⟨noEnd, (later.pushBack token).givesLine⟩))
      · have given := waits.next_of_plain running expanded starts
        exact .inr (.inr (by rw [given]; exact ⟨noEnd, waits.givesLine⟩))

/-- Where a directive is passed on while the next token is found, its tokens are given next or after
that token, unless a call or a pragma operator reads them. -/
theorem givesSoon_of_nextPasses (stepped : r.step setup = .goOn next)
    (waits : Waits setup (token :: tokens) { reader := next }) (closed : (verbatim token).isOpen = false)
    (run : NextPasses setup p r) :
    (∃ x, p.Finds setup x ∧ x.ReadsInside setup r) ∨ GivesSoon setup (token :: tokens) p := by
  induction run with
  | expanding running expanded =>
    obtain ⟨x, reached, reads⟩ | soon := givesSoon_of_expandPasses stepped waits closed running expanded
    · exact .inl ⟨x, .expanding reached, reads⟩
    · exact .inr soon
  | @operand p q passed running same starts goesOn read =>
    subst same
    by_cases isOpen : (((p.expandNext setup).2.checkAbort setup).expandNext setup).1.isOpen = true
    · exact .inl ⟨p, .expanding (.here p), .operand rfl starts isOpen read⟩
    · have run : ExpandPasses setup ((p.expandNext setup).2.checkAbort setup) passed := by
        cases read with
        | opening expanded => exact expanded
        | literal isOpen' => exact absurd isOpen' isOpen
        | close isOpen' => exact absurd isOpen' isOpen
      obtain ⟨x, reached, ⟨nothing, run⟩ | ⟨y, site, m, taken, called, isCall, run⟩⟩ := exists_expands run
      · obtain ⟨later, taken, waits, -⟩ := take_of_passes stepped waits nothing run
        have looked := reached.expandNext_eq.trans (expandNext_of_verbatim taken)
        have given := next_of_noOperand running starts goesOn looked closed
        have noEnd : (p.expandNext setup).1.isEnd = false := by
          refine Bool.eq_false_iff.mpr fun ends => ?_
          rw [startsPragma_of_isEnd ends] at starts
          cases starts
        exact .inr (.inr (by rw [given]; exact ⟨noEnd, (waits.pushBack token).givesLine⟩))
      · exact .inl ⟨p, .expanding (.here p), .name rfl starts reached taken called isCall run⟩
  | @again p q after done operand passed running same starts goesOn read applied more ih =>
    subst same
    obtain ⟨x, reached, reads⟩ | soon := ih stepped
    · exact .inl ⟨x, .later running starts goesOn read applied reached, reads⟩
    · have given := next_of_carriedOut running starts goesOn read applied
      have shift (n : Nat) : p.afterCalls setup (n + 1) = done.afterCalls setup (n + 1) := by
        rw [← afterCalls_next, ← afterCalls_next, given]
      obtain ⟨all, after⟩ | later := soon
      · refine .inr (.inl ⟨fun k small => ?_, ?_⟩)
        · rw [← all k small]
          cases k with
          | zero => exact congrArg Prod.fst given
          | succ k => rw [Preprocessor.given, shift, Preprocessor.given]
        · rw [List.length_cons, shift]
          exact after
      · exact .inr (.inr (by rwa [given]))

end Passed

/-! ## Whole runs -/

theorem isEnd_verbatim (token : Token) : (verbatim token).isEnd = token.isEnd :=
  rfl

/-- That tokens are passed on does not show. -/
theorem joinAfter_map_verbatim (previous : Token) (tokens : List Token) :
    Spelling.joinAfter (verbatim previous) (tokens.map verbatim) = Spelling.joinAfter previous tokens := by
  induction tokens generalizing previous with
  | nil => rfl
  | cons token tokens ih =>
    rw [List.map_cons, Spelling.joinAfter, Spelling.joinAfter, ih]
    rfl

theorem join_map_verbatim (tokens : List Token) :
    Spelling.join (tokens.map verbatim) = Spelling.join tokens := by
  cases tokens with
  | nil => rfl
  | cons token tokens =>
    rw [List.map_cons, Spelling.join, Spelling.join, joinAfter_map_verbatim]
    rfl

/-- A reader that is passed in a run is passed in one of the calls for a token, and the ones before it
have not given the end. -/
theorem Passes.exists_nextPasses {r : Reader} (run : p.Passes setup r) :
    ∃ n, NextPasses setup (p.afterCalls setup n) r ∧ ∀ k, k < n → (p.given setup k).isEnd = false := by
  induction run with
  | next found => exact ⟨0, found, fun k early => absurd early (Nat.not_lt_zero k)⟩
  | @later p r goesOn more ih =>
    obtain ⟨n, found, inside⟩ := ih
    rw [afterCalls_next] at found
    refine ⟨n + 1, found, fun k early => ?_⟩
    cases k with
    | zero => exact goesOn
    | succ k =>
      have inside := inside k (Nat.lt_of_succ_lt_succ early)
      rwa [given_next] at inside

/-- The tokens of a run after some of them. -/
theorem tokensWithin_add {m : Nat} (inside : ∀ k, k < m → (p.given setup k).isEnd = false) (n : Nat) :
    (p.tokensWithin setup (m + n)).1
      = (List.range m).map (p.given setup) ++ ((p.afterCalls setup m).tokensWithin setup n).1 := by
  induction m generalizing p with
  | zero => rw [Nat.zero_add]; rfl
  | succ m ih =>
    have later := given_next setup p
    have rest := ih (p := (p.next setup).2) fun k early =>
      (congrArg Token.isEnd (later k)).trans (inside (k + 1) (Nat.succ_lt_succ early))
    have goesOn : (p.next setup).1.isEnd = false := inside 0 (Nat.succ_pos m)
    rw [Nat.add_right_comm, tokensWithin_of_more goesOn, rest, afterCalls_next, List.range_succ_eq_map,
      List.map_cons, List.map_map, funext later]
    rfl

/-- The first token of a run is the one that is given next, or the run is asked for no token. -/
theorem exists_tokensWithin_eq_cons (setup : Setup) (p : Preprocessor) (n : Nat) :
    ∃ token rest, (p.tokensWithin setup n).1 = token :: rest
      ∧ (token = (p.next setup).1 ∨ token.isEnd = true) := by
  cases n with
  | zero => exact ⟨_, _, rfl, .inr p.finish_facts.1⟩
  | succ n =>
    cases ends : (p.next setup).1.isEnd with
    | true => exact ⟨_, _, congrArg Prod.fst (tokensWithin_of_isEnd ends n), .inr ends⟩
    | false => exact ⟨_, _, congrArg Prod.fst (tokensWithin_of_more ends n), .inl rfl⟩

/-- When nothing waits after a directive, the next token is the first one of a line. -/
theorem Waits.startsLine (waits : Waits setup [] p) : p.StartsLine := by
  obtain ⟨pending, queued⟩ := List.append_eq_nil_iff.mp waits.waiting
  unfold StartsLine
  rw [pending]
  exact Reader.startsLine_of_frames waits.lines (by simp [queued])

theorem onLines_openMain (created : create setup = .ok p) {source : Except SourceError Source} {name : Text}
    (opening : p.openMain setup source name = .ok q) : q.reader.OnLines := by
  have ends {frame : Frame} (starts : Reader.Starts setup q.reader.session.conditions frame) :
      frame.lexer.EndsLine := by
    obtain ⟨source, file, unread⟩ := starts.unread
    rw [unread]
    exact Lexer.endsLine_ofSource source file setup.config.language
  obtain ⟨main, starts, -, alone | ⟨preamble, before, -, -, both⟩⟩ := Reader.frames_openMain created opening
  · exact Reader.onLines_of_cons alone (ends starts).toIsBare (List.forall_mem_nil _)
  · exact Reader.onLines_of_cons both (ends before).toIsBare
      (List.forall_mem_cons.mpr ⟨ends starts, List.forall_mem_nil _⟩)

theorem GivesLine.given_afterCalls {n : Nat} (gives : GivesLine setup tokens (p.afterCalls setup n))
    (k : Nat) (small : k < tokens.length) : p.given setup (n + k) = verbatim tokens[k] := by
  rw [← gives.given k small, Preprocessor.given, Preprocessor.given, afterCalls_afterCalls]

/-- The tokens of a directive that are given are written on a line of their own, unless the first token
of the next line is lost. -/
theorem GivesLine.render {d : Directive} (line : d.IsLine) (inside : Inside d.tokens) {n : Nat}
    (gives : GivesLine setup d.tokens (p.afterCalls setup n))
    (before : ∀ k, k < n → (p.given setup k).isEnd = false) (markers : Bool) {m : Nat}
    (enough : n + d.tokens.length ≤ m) :
    ∃ first last, Spelling.render markers (p.tokensWithin setup m).1
        = first ++ (Spelling.join d.tokens ++ last)
      ∧ (first = [] ∨ first.getLast? = some '\n')
      ∧ (last.head? = some '\n' ∨ (p.afterCalls setup (n + d.tokens.length)).LosesFirst setup) := by
  obtain ⟨rest, rfl⟩ := Nat.exists_eq_add_of_le enough
  have given := gives.given_afterCalls
  have all : ∀ k, k < n + d.tokens.length → (p.given setup k).isEnd = false := by
    intro k early
    by_cases isBefore : k < n
    · exact before k isBefore
    · obtain ⟨j, rfl⟩ := Nat.exists_eq_add_of_le (Nat.le_of_not_lt isBefore)
      rw [given j (by omega), isEnd_verbatim]
      exact inside _ (List.getElem_mem _)
  have written : (List.range (n + d.tokens.length)).map (p.given setup)
      = (List.range n).map (p.given setup) ++ d.tokens.map verbatim := by
    rw [List.range_add, List.map_append, List.map_map]
    refine congrArg _ (List.ext_getElem (by simp) fun k small small' => ?_)
    simp only [List.getElem_map, List.getElem_range, Function.comp_apply]
    exact given k (by simpa using small)
  obtain ⟨next, more, tokens, isNext⟩ :=
    exists_tokensWithin_eq_cons setup (p.afterCalls setup (n + d.tokens.length)) rest
  have after := gives.after
  rw [afterCalls_afterCalls] at after
  have starts := after.startsLine.next setup
  have stays : ∀ t ∈ (d.name.toList ++ d.args).map verbatim, t.atLineStart = false :=
    List.forall_mem_map.mpr line.stays
  have inLine : ∀ t ∈ d.tokens.map verbatim, t.isEnd = false := List.forall_mem_map.mpr inside
  have atStart : (verbatim d.hash).atLineStart = true := line.starts
  obtain ⟨first, last, rendered, alone, ended⟩ := Spelling.render_line markers
    (List.forall_mem_map.mpr fun k early => before k (List.mem_range.mp early)) atStart stays inLine next
    more
  refine ⟨first, last, ?_, alone, ?_⟩
  · rw [tokensWithin_add all, written, tokens, List.append_assoc, ← join_map_verbatim]
    exact rendered
  · obtain starts | ends | loses := starts
    · exact .inl (ended (isNext.elim (fun same => .inl (same ▸ starts)) .inr))
    · exact .inl (ended (isNext.elim (fun same => .inr (same ▸ ends)) .inr))
    · exact .inr loses

/-- A directive that a run passes on is read for the arguments of a call or for the operand of a pragma
operator, or its tokens are given one after the other and written on a line of their own. The text before
them is empty or ends with a line feed, and a line feed follows, unless the first token of the next line
is lost. -/
theorem passed_line (created : create setup = .ok p) {source : Except SourceError Source} {name : Text}
    (opening : p.openMain setup source name = .ok q) {r next : Reader} (run : q.Passes setup r)
    (passed : r.PassesOn setup d next) :
    (∃ n x, (q.afterCalls setup n).Finds setup x ∧ x.ReadsInside setup r)
      ∨ ∃ n, (∀ k (small : k < d.tokens.length), q.given setup (n + k) = verbatim d.tokens[k])
        ∧ ∀ markers m, n + d.tokens.length ≤ m →
          ∃ first last, Spelling.render markers (q.tokensWithin setup m).1
              = first ++ (Spelling.join d.tokens ++ last)
            ∧ (first = [] ∨ first.getLast? = some '\n')
            ∧ (last.head? = some '\n' ∨ (q.afterCalls setup (n + d.tokens.length)).LosesFirst setup) := by
  have onLines : r.OnLines :=
    (Reader.invariant_onLines setup).passes (onLines_openMain created opening) run
  obtain ⟨waits, line, inside⟩ := waits_of_passesOn onLines passed
  have closed : (verbatim d.hash).isOpen = false := Token.isOpen_of_isHash line.isHash
  have written {n : Nat} (gives : GivesLine setup d.tokens (q.afterCalls setup n))
      (before : ∀ k, k < n → (q.given setup k).isEnd = false) :=
    And.intro gives.given_afterCalls fun markers m => gives.render line inside before markers (m := m)
  obtain ⟨n, found, before⟩ := run.exists_nextPasses
  obtain ⟨x, finds, reads⟩ | gives | ⟨goesOn, gives⟩ :=
    givesSoon_of_nextPasses passed.stepped waits closed found
  · exact .inl ⟨n, x, finds, reads⟩
  · exact .inr ⟨n, written gives before⟩
  · refine .inr ⟨n + 1, written gives fun k early => ?_⟩
    obtain earlier | rfl := Nat.lt_succ_iff_lt_or_eq.mp early
    · exact before k earlier
    · exact goesOn

/-! A pragma that is passed on, before a macro that is replaced by nothing. -/

/-- Pragmas are passed on, and no macros are defined first. -/
def passingSetup : Setup where
  config := { standardMacros := false, passesPragmas := true }

/-- The main file. -/
def pragmaText : Text :=
  "#pragma x\n#define E\nE y\n".toList

/-- The run that has opened the main file. -/
def pragmaRun : Preprocessor where
  reader :=
    { Reader.freshRun.reader with
      opened := true
      baseFile := ['m']
      nextFileNumber := 2
      frames := [{
        lexer := .ofSource (.ofDecoded false pragmaText) ⟨['m'], ['m'], 1⟩ .standard false
        path := ['m']
        canonical := passingSetup.files.canonical ['m']
        searchIndex := none
        includeDepth := 0
        conditionDepth := 0
        isPreamble := false }] }

/-- The lexer at the start of the main file. -/
def pragmaLexer : Lexer :=
  .ofSource (.ofDecoded false pragmaText) ⟨['m'], ['m'], 1⟩ .standard false

/-- The first line of the main file. -/
def pragmaLine : Directive :=
  (pragmaLexer.next.2.directive pragmaLexer.next.1).1

/-- A step that gives no token, in a run that goes on. -/
def goesOnRunning : Reader.Step → Bool
  | .goOn next => next.status ≠ .aborted
  | .give _ _ => false

/-- The action is to pass the line on. -/
def passesLine : Action → Bool
  | .pass => true
  | _ => false

theorem pragmaLine_facts :
    Reader.startsDirective pragmaLexer.next.1 = true ∧ pragmaLexer.next.1.isEnd = false
      ∧ passesLine (pragmaLine.execute passingSetup pragmaRun.reader.place pragmaRun.reader.session).1
      ∧ goesOnRunning (pragmaRun.reader.step passingSetup) = true := by
  decide +kernel

theorem passed_line_pragma :
    ∃ next, pragmaRun.reader.PassesOn passingSetup pragmaLine next
      ∧ ((∃ n x, (pragmaRun.afterCalls passingSetup n).Finds passingSetup x
          ∧ x.ReadsInside passingSetup pragmaRun.reader)
        ∨ ∃ n, (∀ k (small : k < pragmaLine.tokens.length),
            pragmaRun.given passingSetup (n + k) = verbatim pragmaLine.tokens[k])
          ∧ ∀ markers m, n + pragmaLine.tokens.length ≤ m →
            ∃ first last, Spelling.render markers (pragmaRun.tokensWithin passingSetup m).1
                = first ++ (Spelling.join pragmaLine.tokens ++ last)
              ∧ (first = [] ∨ first.getLast? = some '\n')
              ∧ (last.head? = some '\n'
                ∨ (pragmaRun.afterCalls passingSetup (n + pragmaLine.tokens.length)).LosesFirst
                  passingSetup)) := by
  obtain ⟨starts, more, passes, goesOn⟩ := pragmaLine_facts
  have created : create passingSetup = .ok Reader.freshRun := rfl
  have opening : Reader.freshRun.openMain passingSetup (.ok (.ofDecoded false pragmaText)) ['m']
      = .ok pragmaRun := rfl
  have here : pragmaLexer.item = (.directive pragmaLine, _) := Lexer.item_of_startsDirective more starts
  cases stepped : pragmaRun.reader.step passingSetup with
  | give token next =>
    rw [stepped] at goesOn
    cases goesOn
  | goOn next =>
    rw [stepped] at goesOn
    cases asked : (pragmaLine.execute passingSetup pragmaRun.reader.place pragmaRun.reader.session).1 with
    | pass =>
      have passed : pragmaRun.reader.PassesOn passingSetup pragmaLine next :=
        ⟨⟨_, _, _, rfl, here⟩, asked, stepped, of_decide_eq_true goesOn⟩
      exact ⟨next, passed, passed_line created opening
        (.next (.expanding (by decide) (.taking rfl (.here _)))) passed⟩
    | nothing => rw [asked] at passes; cases passes
    | enter header site => rw [asked] at passes; cases passes
    | present line name => rw [asked] at passes; cases passes
    | once => rw [asked] at passes; cases passes

end Preprocessor

end CPreprocessor
