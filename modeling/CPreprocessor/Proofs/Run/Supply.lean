/-
# Readers of a main file alone

When the main file has no directives and no other file is open, a reader gives the tokens
of the main file one after the other and then its end for ever (`Reader.Supplies`). What
a run gathers for a call is the next part of these tokens, and the call can be told from
that part (`headOfMacro_supplied`).
-/
import CPreprocessor.Proofs.Expansion.Arguments
import CPreprocessor.Proofs.Expansion.Ends
import CPreprocessor.Proofs.Lexing.Words
import CPreprocessor.Proofs.Guard.Reread
import CPreprocessor.Proofs.Run.Passing

namespace CPreprocessor

namespace Reader

variable {setup : Setup} {ctx : Expansion.Context} {counter : Nat} {tokens : List Token}
  {final : Token} {r : Reader}

/-- The reader is in its main file, and no other one is open, or it has left the main file. It still
gives these tokens, none of which starts a directive, and then the end of the file. Expansion
depends on `ctx` meanwhile, and the next number of `__COUNTER__` is `counter`. -/
structure Supplies (setup : Setup) (ctx : Expansion.Context) (counter : Nat) (tokens : List Token)
    (final : Token) (r : Reader) : Prop where
  idle : r.queued = []
  ok : r.status = .ok
  unconditional : r.session.conditions.frames = []
  context : ctx =
    { table := r.session.macros, language := setup.config.language, clock := setup.clock,
      includeLevel := 0, baseFile := r.baseFile }
  counter : r.session.expansion.counter = counter
  inside : Inside tokens
  noDirective : ∀ token ∈ tokens, startsDirective token = false
  isEnd : final.isEnd = true
  source :
    (∃ frame, r.frames = [frame] ∧ frame.includeDepth = 0 ∧ frame.conditionDepth = 0
      ∧ frame.lexer.drain.1 = tokens ++ [final])
    ∨ r.frames = [] ∧ tokens = [] ∧ ∃ ends, r.ending = some ⟨final, ends⟩

namespace Supplies

variable (supplies : r.Supplies setup ctx counter tokens final)
include supplies

theorem macros : r.session.macros = ctx.table := by
  rw [supplies.context]

theorem context_eq : Preprocessor.context setup r = ctx := by
  obtain ⟨frame, isOpen, top, -⟩ | ⟨left, -⟩ := supplies.source
  · rw [supplies.context, Preprocessor.context, place, isOpen]
    simp only [Session.context, top]
  · rw [supplies.context, Preprocessor.context, place, left]
    rfl

theorem isLive : r.session.conditions.isLive = true := by
  have closed := supplies.unconditional
  unfold ConditionStack.isLive
  rw [closed]

theorem running : r.status ≠ .aborted := by
  rw [supplies.ok]
  exact nofun

theorem withExpansion (expansion : Expansion.State) :
    (Preprocessor.withExpansion r expansion).Supplies setup ctx expansion.counter tokens final :=
  { supplies with counter := rfl }

theorem report (token : Token) (code : Code) (detail : Text) :
    (r.report token code detail).Supplies setup ctx counter tokens final :=
  { supplies with }

end Supplies

section Pulling

variable (lenient : setup.config.failFast = false)
include lenient

/-- The next token is given. -/
theorem Supplies.pull_cons {token : Token}
    (supplies : r.Supplies setup ctx counter (token :: tokens) final) :
    (r.pull setup).1 = token ∧ (r.pull setup).2.Supplies setup ctx counter tokens final := by
  obtain ⟨frame, isOpen, top, level, drained⟩ | ⟨-, nothing, -⟩ := supplies.source
  · obtain ⟨here, inside⟩ := List.forall_mem_cons.mp supplies.inside
    obtain ⟨starts, noDirective⟩ := List.forall_mem_cons.mp supplies.noDirective
    have goesOn : frame.lexer.next.1.isEnd = false := by
      by_contra ends
      rw [Lexer.drain_eq, if_pos (by simpa using ends)] at drained
      simp at drained
    rw [Lexer.drain_eq, goesOn, if_neg Bool.false_ne_true, List.cons_append, List.cons.injEq]
      at drained
    obtain ⟨rfl, later⟩ := drained
    have stepped := (step_of_readToken setup supplies.idle isOpen supplies.running).trans
      (readToken_eq setup r frame [])
    rw [Lexer.item_of_token goesOn starts] at stepped
    simp only [supplies.isLive, if_true] at stepped
    rw [pull_of_give stepped]
    refine ⟨rfl, ?_⟩
    let rest : Frame := { frame with lexer := frame.lexer.next.2, guard := frame.guard.afterToken }
    obtain ⟨status, reported⟩ := exists_reportSpelling setup { r with frames := [rest] }
      frame.lexer.next.1
    obtain ⟨journal, annotated⟩ := r.session.exists_reportSpelling frame.lexer.next.1
    have same := status_reportSpelling lenient { r with frames := [rest] } frame.lexer.next.1
    have accepted : r.accept setup { frame with lexer := frame.lexer.next.2 } [] frame.lexer.next.1
        = { r with frames := [rest], session := r.session.annotated journal } := by
      rw [reported] at same
      cases same
      rw [accept, reported, annotated]
    rw [accepted]
    exact { supplies with
      context := supplies.context, counter := supplies.counter, inside, noDirective
      source := .inl ⟨rest, rfl, top, level, later⟩ }
  · cases nothing

/-- At the end of the file, the end is given. -/
theorem Supplies.pull_nil (supplies : r.Supplies setup ctx counter [] final) :
    (r.pull setup).1 = final ∧ (r.pull setup).2.Supplies setup ctx counter [] final := by
  have left (r : Reader) (supplies : r.Supplies setup ctx counter [] final) (left : r.frames = [])
      (ends) (ending : r.ending = some ⟨final, ends⟩) : r.pull setup = (final, r) := by
    rw [pull_of_isFinished ⟨supplies.idle, .inl left⟩, finish, ending]
  obtain ⟨frame, isOpen, top, level, drained⟩ | ⟨closed, nothing, ends, ending⟩ := supplies.source
  · have ends : frame.lexer.next.1.isEnd = true := by
      by_contra goesOn
      rw [Lexer.drain_eq, if_neg goesOn, List.nil_append, List.cons.injEq] at drained
      exact frame.lexer.next.2.drain_ne_nil drained.2
    rw [Lexer.drain_eq, if_pos ends, List.nil_append, List.cons.injEq] at drained
    obtain ⟨rfl, -⟩ := drained
    have depth : frame.conditionDepth = r.session.conditions.depth := by
      rw [level, ConditionStack.depth, supplies.unconditional]
      rfl
    obtain ⟨journal, guards, status, reads⟩ := reads_finish setup isOpen supplies.idle depth
      (Lexer.item_of_isEnd ends)
    have same := reads.status lenient
    cases same
    rw [reads.pull_eq lenient rfl supplies.running]
    have after : Supplies setup ctx counter [] frame.lexer.next.1
        { r with
          session := r.session.annotated journal, frames := [], guards
          ending := if [] = ([] : List Frame) then some ⟨frame.lexer.next.1, ends⟩ else r.ending } :=
      { supplies with
        context := supplies.context, counter := supplies.counter
        source := .inr ⟨rfl, rfl, ends, rfl⟩ }
    rw [left _ after rfl ends rfl]
    exact ⟨rfl, after⟩
  · rw [left r supplies closed ends ending]
    exact ⟨rfl, supplies⟩

end Pulling

end Reader

/-! ## Gathering calls -/

namespace Preprocessor

variable {setup : Setup} {ctx : Expansion.Context} {counter : Nat} {tokens : List Token}
  {final : Token} {r : Reader}

theorem depthAfter_gather (setup : Setup) (depth : Nat) (r : Reader) :
    Arguments.depthAfter depth (gather setup depth r).1 = none := by
  fun_induction gather setup depth r with
  | case1 depth r ended => exact ended
  | case2 depth r inner goesOn more ih =>
    rw [← List.singleton_append, Arguments.depthAfter_append, goesOn]
    exact ih

/-- What is gathered for a name tells whether the macro is called. -/
theorem decides_gatherFrom (setup : Setup) (m : Macro) (opening : Token) (inner : List Token)
    (r : Reader) : Head.Decides m (gatherFrom setup opening inner r).1 := by
  intro _
  unfold gatherFrom
  split
  · rename_i undecided
    refine ⟨opening, inner, rfl, fun isOpen => ?_⟩
    rwa [if_pos isOpen] at undecided
  · rename_i depth unclosed
    split at unclosed
    · refine ⟨opening, _, rfl, fun _ => ?_⟩
      rw [Arguments.depthAfter_append, unclosed]
      exact depthAfter_gather setup depth r
    · cases unclosed

theorem decides_headOfMacro (setup : Setup) (m : Macro) (site : Token) (q : Preprocessor) :
    ∃ rest, (headOfMacro setup m site q).1 = Head.ofMacro m site rest ∧ Head.Decides m rest := by
  unfold headOfMacro
  split
  · refine ⟨_, rfl, ?_⟩
    unfold gatherCall
    split <;> exact decides_gatherFrom setup m _ _ _
  · rename_i notFunctionLike
    exact ⟨q.pending, rfl, fun isFunctionLike => absurd isFunctionLike notFunctionLike⟩

/-- Nothing is gathered where it can be told whether the macro is called. -/
theorem headOfMacro_of_decides {m : Macro} {q : Preprocessor} (decided : Head.Decides m q.pending)
    (site : Token) : headOfMacro setup m site q = (Head.ofMacro m site q.pending, q.reader) := by
  unfold headOfMacro
  split
  · rename_i isFunctionLike
    obtain ⟨opening, inner, waiting, closed⟩ := decided isFunctionLike
    have undecided : (if opening.isOpen then Arguments.depthAfter 0 inner else none) = none := by
      split
      · exact closed ‹_›
      · rfl
    rw [waiting, gatherCall, gatherFrom]
    split
    · rfl
    · rename_i unclosed
      rw [undecided] at unclosed
      cases unclosed
  · rfl

/-- What was gathered is the next part of the tokens that were there, or all of them with the end of
the file. -/
structure Gathers (setup : Setup) (ctx : Expansion.Context) (counter : Nat) (tokens : List Token)
    (final : Token) (gathered : List Token × Reader) (more ends : List Token) : Prop where
  supplies : gathered.2.Supplies setup ctx counter more final
  parts : gathered.1 ++ more = tokens ++ ends
  ends : ∀ token ∈ ends, token = final

section Gathering

variable (lenient : setup.config.failFast = false)
include lenient

/-- A token is pulled from the supply, or its end. -/
theorem pull_supplied (supplies : r.Supplies setup ctx counter tokens final) :
    ∃ more ends,
      Gathers setup ctx counter tokens final ([(r.pull setup).1], (r.pull setup).2) more ends := by
  cases tokens with
  | nil =>
    obtain ⟨given, after⟩ := supplies.pull_nil lenient
    exact ⟨[], [final], after, by rw [given]; rfl, by simp⟩
  | cons token rest =>
    obtain ⟨given, after⟩ := supplies.pull_cons lenient
    exact ⟨rest, [], after, by rw [given, List.append_nil]; rfl, List.forall_mem_nil _⟩

/-- Tokens are gathered until the call is closed or the file has ended. -/
theorem gather_supplied (supplies : r.Supplies setup ctx counter tokens final) (depth : Nat) :
    ∃ more ends, Gathers setup ctx counter tokens final (gather setup depth r) more ends := by
  induction tokens generalizing r depth with
  | nil =>
    obtain ⟨given, after⟩ := supplies.pull_nil lenient
    have closes : Arguments.depthAfter depth [(r.pull setup).1] = none := by
      rw [given, Arguments.depthAfter, if_pos supplies.isEnd]
    rw [gather_of_none closes]
    refine ⟨[], [final], after, ?_, by simp⟩
    rw [given]
    rfl
  | cons token rest ih =>
    obtain ⟨given, after⟩ := supplies.pull_cons lenient
    cases closes : Arguments.depthAfter depth [(r.pull setup).1] with
    | none =>
      rw [gather_of_none closes]
      refine ⟨rest, [], after, ?_, List.forall_mem_nil _⟩
      rw [given, List.append_nil]
      rfl
    | some inner =>
      obtain ⟨more, ends, gathers⟩ := ih after inner
      rw [gather_of_some closes]
      refine ⟨more, ends, gathers.supplies, ?_, gathers.ends⟩
      rw [given, List.cons_append, gathers.parts]
      rfl

/-- After an opening parenthesis the rest of the call is gathered. -/
theorem gatherFrom_supplied (supplies : r.Supplies setup ctx counter tokens final) (opening : Token)
    (inner : List Token) :
    ∃ more ends,
      Gathers setup ctx counter (opening :: inner ++ tokens) final
        (gatherFrom setup opening inner r) more ends := by
  unfold gatherFrom
  split
  · exact ⟨tokens, [], supplies, (List.append_nil _).symm, List.forall_mem_nil _⟩
  · rename_i depth unclosed
    obtain ⟨more, ends, gathers⟩ := gather_supplied lenient supplies depth
    refine ⟨more, ends, gathers.supplies, ?_, gathers.ends⟩
    simp only [List.cons_append, List.append_assoc, gathers.parts]

/-- What is gathered for a name tells whether the macro is called, and with which arguments. -/
theorem headOfMacro_supplied {q : Preprocessor}
    (supplies : q.reader.Supplies setup ctx counter tokens final) (m : Macro) (site : Token) :
    ∃ gathered more ends,
      headOfMacro setup m site q = (Head.ofMacro m site gathered.1, gathered.2)
      ∧ Gathers setup ctx counter (q.pending ++ tokens) final gathered more ends
      ∧ Head.Decides m gathered.1 := by
  unfold headOfMacro
  by_cases isFunctionLike : m.isFunctionLike = true
  · rw [if_pos isFunctionLike]
    cases pending : q.pending with
    | cons opening inner =>
      obtain ⟨more, ends, gathers⟩ := gatherFrom_supplied lenient supplies opening inner
      exact ⟨_, more, ends, rfl, gathers, decides_gatherFrom setup m opening inner q.reader⟩
    | nil =>
      obtain ⟨others, ends, pulled⟩ := pull_supplied lenient supplies
      obtain ⟨more, ends', gathers⟩ :=
        gatherFrom_supplied lenient pulled.supplies (q.reader.pull setup).1 []
      have parts : (q.reader.pull setup).1 :: others = tokens ++ ends := pulled.parts
      refine ⟨_, more, ends ++ ends', rfl, ⟨gathers.supplies, ?_, ?_⟩,
        decides_gatherFrom setup m _ _ _⟩
      · rw [List.nil_append, ← List.append_assoc, ← parts]
        exact gathers.parts
      · exact List.forall_mem_append.mpr ⟨pulled.ends, gathers.ends⟩
  · rw [if_neg isFunctionLike]
    exact ⟨(q.pending, q.reader), tokens, [], rfl,
      ⟨supplies, (List.append_nil _).symm, List.forall_mem_nil _⟩,
      fun isFunctionLike' => absurd isFunctionLike' isFunctionLike⟩

end Gathering

end Preprocessor

end CPreprocessor
