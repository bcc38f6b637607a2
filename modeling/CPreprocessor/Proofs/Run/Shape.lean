/-
# The shape of a run

A call for a token that gives the end of the main file is followed by calls that give it
again and change nothing that is recorded (`IsOver.next`). A call that gives another token
leaves less, or it has reported a malformed pragma operator, whose tokens it gives back
(`next_progress`). So a run comes to its end unless it reports errors for ever
(`run_shape`).
-/
import CPreprocessor.Proofs.Run.Order

namespace CPreprocessor

/-! ## Tokens that are given back -/

namespace Exposure

/-- A token that hides more counts for no more. -/
theorem atMost_cons_of_hides {names : List Text} {site token : Token} (more : site.isEnd = false)
    (hides : ∀ name ∈ site.hideSet, name ∈ token.hideSet) (rest : List Token) :
    Levels.AtMost (levels names (token :: rest)) (levels names (site :: rest)) := by
  have exposed : ∀ name, expose nothing token name → expose nothing site name := by
    intro name
    simp only [expose, nothing, Bool.false_or, more, Bool.not_false, Bool.true_and,
      Bool.and_eq_true, Bool.not_eq_true', List.contains_eq_mem, decide_eq_false_iff_not]
    exact fun free inSite => free.2 (hides name inSite)
  refine .inr ⟨rfl, fun level => ?_⟩
  have count := List.countP_mono_left (l := names) fun name _ => exposed name
  have later : weight names level _ rest ≤ weight names level _ rest := weight_mono exposed rest
  simp only [levels, weight, more, Bool.not_false, Bool.true_and, Bool.and_eq_true, decide_eq_true_eq]
  split
  · rename_i counted
    rw [if_pos (Nat.le_trans counted.2 count)]
    omega
  · omega

end Exposure

namespace Preprocessor

variable {setup : Setup} {p q : Preprocessor}

/-- What was taken to expand a token counts for no more when a token is put in front of it that hides
no less. -/
theorem notMore_cons_of_gathered {site token : Token} {rest : List Token} {r : Reader}
    (taken : p.take setup = (site, q)) (more : site.isEnd = false)
    (gathered : Gathered setup q.pending q.reader (rest, r))
    (hides : ∀ name ∈ site.hideSet, name ∈ token.hideSet) (expansion : Expansion.State) :
    NotMore setup ⟨withExpansion r expansion, token :: rest⟩ p := by
  have cases := take_cases setup p
  rw [taken] at cases
  obtain ⟨pending, waiting, after⟩ | less | ⟨isEnd, -⟩ := cases
  · simp only at waiting after
    subst after
    obtain less | ⟨same, ends, added, areEnds⟩ := gathered
    · exact .inl (.inl less)
    · have amounts : r.amount setup = p.reader.amount setup := Reader.amount_of_sameState same
      have names : r.session.macros = p.reader.session.macros := congrArg Session.macros same.2.2
      refine .inr ⟨amounts, ?_⟩
      show Levels.AtMost (Exposure.levels r.session.macros.knownNames (token :: rest)) p.pendingLevels
      simp only at added
      unfold pendingLevels
      rw [names, waiting, added, ← List.cons_append, Exposure.levels_append_end areEnds]
      exact Exposure.atMost_cons_of_hides more hides pending
  · obtain further | ⟨same, -⟩ := gathered
    · exact .inl (.inl (further.trans less))
    · have amounts : r.amount setup = q.reader.amount setup := Reader.amount_of_sameState same
      exact .inl (.inl (readerLess_of_eq_left (a := withExpansion r expansion) amounts less))
  · rw [more] at isEnd
    cases isEnd

/-- A token that has been expanded and is given back counts for no more than before. -/
theorem notMore_pushBack (p : Preprocessor) :
    NotMore setup ((p.expandNext setup).2.pushBack [(p.expandNext setup).1]) p := by
  fun_induction expandNext setup p with
  | case1 p site q taken notCalled =>
    unfold take at taken
    split at taken
    · rename_i token pending waiting
      cases taken
      have same : ({ p with pending } : Preprocessor).pushBack [site] = p := by
        simp only [pushBack, List.cons_append, List.nil_append, ← waiting]
      rw [same]
      exact .refl p
    · rename_i nothing
      cases taken
      obtain less | ⟨isEnd, same⟩ := Reader.pull_progress setup p.reader
      · exact .inl (.inl less)
      · refine .inr ⟨Reader.amount_of_sameState same, ?_⟩
        simp only [pushBack, pendingLevels, nothing, same.2.2, List.append_nil]
        rw [← List.nil_append [(p.reader.pull setup).1], Exposure.levels_append_end (by simpa using isEnd)]
        exact .refl _
  | case2 p site q taken m called token rest r found =>
    obtain ⟨gathered, head, added⟩ := head_of_headOfMacro found
    obtain rfl := Head.rest_of_ofMacro.1 _ _ head.symm
    exact notMore_cons_of_gathered taken (Head.isEnd_of_called? called) added (fun _ => id)
      r.session.expansion
  | case3 p site q taken m called kind token rest r found done =>
    obtain ⟨gathered, head, added⟩ := head_of_headOfMacro found
    obtain rfl := Head.rest_of_ofMacro.2.1 _ _ _ head.symm
    refine notMore_cons_of_gathered taken (Head.isEnd_of_called? called) added (fun name member => ?_) _
    exact HideSet.mem_union.mpr (.inr (HideSet.mem_union.mpr (.inl member)))
  | case4 p site q taken m called code token rest r found =>
    obtain ⟨gathered, head, added⟩ := head_of_headOfMacro found
    obtain rfl := Head.rest_of_ofMacro.2.2 _ _ _ head.symm
    exact notMore_cons_of_gathered taken (Head.isEnd_of_called? called) added (fun _ => id) _
  | case5 p site q taken m called c r found ih =>
    exact .inl (ih.trans_less (less_of_replaceCall taken called found))

/-! ## Progress -/

/-- The state after the pending tokens that stay as they are. -/
def unpassed (p : Preprocessor) : Preprocessor :=
  { p with pending := p.pending.dropWhile (·.verbatim) }

theorem notMore_unpassed (p : Preprocessor) : NotMore setup p.unpassed p :=
  .inr ⟨rfl, Exposure.atMost_of_sublist (List.dropWhile_sublist _)⟩

theorem errorCount_report (token : Token) {code : Code} (isError : code.severity = .error)
    (detail : Text) (p : Preprocessor) :
    (p.report token code detail).journal.errorCount = p.journal.errorCount + 1 := by
  show ((p.journal.report token code detail).entries.countP _) = _
  rw [Journal.report, Journal.reportAt, Journal.add, List.countP_append]
  simp [Journal.diagnose, isError, Journal.errorCount, Journal.count]

/-- The operand of a pragma operator that is not carried out has been reported, or there is none, and
what was read for it counts for no more than before. -/
theorem readOperand_none {keyword : Token} (read : p.readOperand setup keyword = (none, q)) :
    p.journal.errorCount < q.journal.errorCount ∨ NotMore setup q p := by
  cases isOpen : (p.expandNext setup).1.isOpen with
  | false =>
    rw [readOperand_of_not_isOpen keyword isOpen] at read
    cases read
    exact .inr (notMore_pushBack p)
  | true =>
    rw [readOperand_of_isOpen keyword isOpen, closeOperand] at read
    split at read
    · cases read
    · cases read
      have invariant := Reader.invariant_records setup p.reader
      have records := invariant.expandNext (invariant.expandNext (invariant.expandNext (.refl setup _)))
      refine .inl (Nat.lt_of_le_of_lt records.reports.errorCount_le ?_)
      exact Nat.lt_of_lt_of_eq (Nat.lt_succ_self _) (errorCount_report keyword rfl _ _).symm

/-- A call that does not give the end of the file reports an error, or leaves less, not counting the
tokens of a pragma operator that is passed on. -/
theorem next_less (goesOn : (p.next setup).1.isEnd = false) :
    p.journal.errorCount < (p.next setup).2.journal.errorCount
      ∨ Less setup (p.next setup).2.unpassed p := by
  have ended (q : Preprocessor) (goesOn : q.finish.1.isEnd = false) : False := by
    rw [q.finish_facts.1] at goesOn
    cases goesOn
  fun_induction Preprocessor.next setup p with
  | case1 p aborted => exact (ended p goesOn).elim
  | case2 p running token q starts aborted => exact (ended q goesOn).elim
  | case3 p running token q starts running' q' read =>
    have more : token.isEnd = false :=
      Bool.eq_false_iff.mpr fun isEnd => by rw [startsPragma_of_isEnd isEnd] at starts; cases starts
    have less := (expandNext_progress p).2 more
    obtain error | notMore := readOperand_none read
    · have invariant := Reader.invariant_records setup p.reader
      have records := invariant.checkAbort (invariant.expandNext (p := p) (.refl setup _))
      exact .inl (Nat.lt_of_le_of_lt records.reports.errorCount_le error)
    · exact .inr (((notMore_unpassed q').trans (notMore.trans (notMore_checkAbort _))).trans_less less)
  | case4 p running token q starts running' operand q' read done applied =>
    have less := less_of_pragma rfl starts read
    rw [applied] at less
    unfold give at goesOn ⊢
    split
    · rename_i aborted
      rw [if_pos aborted] at goesOn
      exact (ended _ goesOn).elim
    · have same : ((done.checkAbort setup).passOperand operand).unpassed
          = (done.checkAbort setup).unpassed := rfl
      rw [same]
      exact .inr (((notMore_unpassed _).trans (notMore_checkAbort done)).trans_less less)
  | case5 p running token q starts running' operand q' read done applied ih =>
    have less := less_of_pragma rfl starts read
    have records := records_operator setup read
    rw [applied] at less records
    refine (ih goesOn).imp (fun error => ?_) fun further => further.trans less
    exact Nat.lt_of_le_of_lt records.reports.errorCount_le error
  | case6 p running token q plain =>
    unfold give at goesOn ⊢
    split
    · rename_i aborted
      rw [if_pos aborted] at goesOn
      exact (ended _ goesOn).elim
    · rename_i running'
      rw [if_neg running'] at goesOn
      have less := (expandNext_progress p).2 goesOn
      exact .inr (((notMore_unpassed _).trans (notMore_checkAbort _)).trans_less less)

/-- A pending token that stays as it is, is given. -/
theorem next_of_verbatim {token : Token} {rest : List Token} (waiting : p.pending = token :: rest)
    (passed : token.verbatim = true) (goesOn : (p.next setup).1.isEnd = false) :
    (p.next setup).2 = ({ p with pending := rest } : Preprocessor).checkAbort setup := by
  have taken : p.take setup = (token, { p with pending := rest }) := by
    rw [take, waiting]
  have stays (table : MacroTable) : Head.called? table token = none := by
    rw [Head.called?, if_pos passed]
  have plain : ¬startsPragma token = true := by
    simp [startsPragma, passed]
  by_cases aborted : p.isAborted = true
  · rw [next_of_aborted aborted, p.finish_facts.1] at goesOn
    cases goesOn
  · have expanded := expandNext_of_none taken (stays _)
    rw [next_of_plain aborted (by rwa [expanded]), expanded, give] at goesOn ⊢
    split
    · rename_i ended
      rw [if_pos ended, (finish_facts _).1] at goesOn
      cases goesOn
    · rfl

/-- What is left of a run that reports at most `most` errors: errors, then what is left to read and to
expand, then pending tokens that stay as they are. -/
def left (setup : Setup) (most : Nat) (p : Preprocessor) : Nat × ((Levels × Nat) × Levels) × Nat :=
  (most - p.journal.errorCount, p.unpassed.amount setup,
    (p.pending.takeWhile (·.verbatim)).length)

/-- The order in which less is left of a run. -/
abbrev LeftLess : Nat × ((Levels × Nat) × Levels) × Nat → Nat × ((Levels × Nat) × Levels) × Nat → Prop :=
  Prod.Lex (· < ·) (Prod.Lex (Prod.Lex (Prod.Lex Levels.Below (· < ·)) Levels.Below) (· < ·))

theorem leftLess_wf : WellFounded LeftLess :=
  (Prod.instWellFoundedRelation : WellFoundedRelation (Nat × ((Levels × Nat) × Levels) × Nat)).wf

/-- A call that does not give the end of the file leaves less of the run. -/
theorem next_progress (goesOn : (p.next setup).1.isEnd = false) {most : Nat}
    (bounded : (p.next setup).2.journal.errorCount ≤ most) :
    LeftLess ((p.next setup).2.left setup most) (p.left setup most) := by
  have errors : p.journal.errorCount ≤ (p.next setup).2.journal.errorCount :=
    (records_next setup p).reports.errorCount_le
  by_cases passes : ∃ token rest, p.pending = token :: rest ∧ token.verbatim = true
  · obtain ⟨token, rest, waiting, passed⟩ := passes
    have amounts : (({ p with pending := rest } : Preprocessor).checkAbort setup).unpassed.amount setup
        = p.unpassed.amount setup := by
      simp only [unpassed, waiting, List.dropWhile_cons, passed, if_true, checkAbort, amount,
        Reader.amount, pendingLevels]
      unfold Reader.checkAbort
      split <;> rfl
    have shorter : ((({ p with pending := rest } : Preprocessor).checkAbort setup).pending.takeWhile
        (·.verbatim)).length < (p.pending.takeWhile (·.verbatim)).length := by
      simp only [checkAbort, waiting, List.takeWhile_cons, passed, if_true, List.length_cons]
      exact Nat.lt_succ_self _
    rw [next_of_verbatim waiting passed goesOn, left, left, journal_checkAbort, amounts]
    exact Prod.Lex.right _ (Prod.Lex.right _ shorter)
  · have same : p.unpassed = p := by
      obtain ⟨r, pending⟩ := p
      cases pending with
      | nil => rfl
      | cons token rest =>
        have stays : ¬token.verbatim = true := fun passed => passes ⟨token, rest, rfl, passed⟩
        simp only [unpassed, List.dropWhile_cons, if_neg stays]
    obtain error | less := next_less goesOn
    · exact Prod.Lex.left _ _ (by omega)
    · obtain error | equal := Nat.lt_or_eq_of_le errors
      · exact Prod.Lex.left _ _ (by omega)
      · have further := lex_of_less less
        rw [left, left, ← equal, same]
        exact Prod.Lex.right _ (Prod.Lex.left _ _ further)

/-- A run that reports only so many errors comes to its end. -/
theorem exists_isEnd {most : Nat}
    (bounded : ∀ n, (p.afterCalls setup n).journal.errorCount ≤ most) :
    ∃ n, ((p.afterCalls setup n).next setup).1.isEnd = true := by
  induction remains : p.left setup most using leftLess_wf.induction generalizing p with
  | h remains ih =>
    subst remains
    cases ends : (p.next setup).1.isEnd with
    | true => exact ⟨0, ends⟩
    | false =>
      have less := next_progress ends (bounded 1)
      obtain ⟨n, isEnd⟩ := ih _ less (fun n => by rw [afterCalls_next]; exact bounded (n + 1)) rfl
      exact ⟨n + 1, by rwa [afterCalls_next] at isEnd⟩

/-! ## After the end -/

/-- If the run is to end with its first error and there is one, that has been noticed. -/
def IsSettled (setup : Setup) (p : Preprocessor) : Prop :=
  p.reader.status = .ok → ¬(setup.config.failFast = true ∧ 0 < p.journal.errorCount)

theorem isSettled_of_isAborted (aborted : p.isAborted = true) : p.IsSettled setup := by
  intro ok
  rw [isAborted, ok] at aborted
  cases aborted

theorem isSettled_checkAbort (p : Preprocessor) : (p.checkAbort setup).IsSettled setup := by
  intro ok errors
  have journal : (p.checkAbort setup).journal = p.journal := journal_checkAbort p
  rw [journal] at errors
  obtain ⟨failFast, error⟩ := errors
  have error : 0 < p.reader.session.journal.errorCount := error
  unfold checkAbort Reader.checkAbort at ok
  split at ok
  · cases ok
  · rename_i goesOn
    have ok : p.reader.status = .ok := ok
    simp [failFast, error, ok] at goesOn

theorem checkAbort_of_isSettled (settled : p.IsSettled setup) : p.checkAbort setup = p := by
  unfold checkAbort Reader.checkAbort
  split
  · rename_i aborts
    simp only [Bool.and_eq_true, decide_eq_true_eq] at aborts
    exact absurd aborts.1 (settled aborts.2)
  · rfl

/-- When a call gives the end of the file, errors have been noticed. -/
theorem isSettled_next (isEnd : (p.next setup).1.isEnd = true) : (p.next setup).2.IsSettled setup := by
  have finished {q : Preprocessor} (aborted : q.isAborted = true) : q.finish.2.IsSettled setup :=
    isSettled_of_isAborted (q.finish_facts.2.1.trans aborted)
  fun_induction Preprocessor.next setup p with
  | case1 p aborted => exact finished aborted
  | case2 p running token q starts aborted => exact finished aborted
  | case3 p running token q starts running' q' read =>
    rw [startsPragma_of_isEnd isEnd] at starts
    cases starts
  | case4 p running token q starts running' operand q' read done applied =>
    unfold give at isEnd ⊢
    split
    · rename_i aborted
      exact finished aborted
    · rename_i running'
      rw [if_neg running'] at isEnd
      have isEnd : token.isEnd = true := isEnd
      rw [startsPragma_of_isEnd isEnd] at starts
      cases starts
  | case5 p running token q starts running' operand q' read done applied ih => exact ih isEnd
  | case6 p running token q plain =>
    unfold give
    split
    · rename_i aborted
      exact finished aborted
    · exact isSettled_checkAbort _

/-- The run has come to its end, and errors have been noticed. -/
structure IsOver (setup : Setup) (p : Preprocessor) : Prop where
  ended : p.HasEnded
  settled : p.IsSettled setup

/-- After the end a call gives the end of the file again, and nothing changes. -/
theorem IsOver.next (isOver : p.IsOver setup) :
    (p.next setup).1.isEnd = true ∧ (p.next setup).2.IsOver setup ∧ Idles p (p.next setup).2 := by
  by_cases aborted : p.isAborted = true
  · rw [next_of_aborted aborted]
    exact ⟨p.finish_facts.1, ⟨hasEnded_finish aborted,
      isSettled_of_isAborted (p.finish_facts.2.1.trans aborted)⟩, p.idles_finish⟩
  · have atEnd := isOver.ended.resolve_left aborted
    obtain ⟨isEnd, atEnd', idles⟩ := atEnd.expandNext setup
    have settled : (p.expandNext setup).2.IsSettled setup := by
      unfold IsSettled journal
      rw [idles.status, idles.session]
      exact isOver.settled
    have running : ¬(p.expandNext setup).2.isAborted = true := by
      rwa [isAborted, idles.status]
    have plain : ¬startsPragma (p.expandNext setup).1 = true := by
      simp [startsPragma_of_isEnd isEnd]
    rw [next_of_plain aborted plain, checkAbort_of_isSettled settled, give, if_neg running]
    exact ⟨isEnd, ⟨.inr atEnd', settled⟩, idles⟩

/-! ## Whole runs -/

/-- The token that a run gives after `n` others. -/
def given (setup : Setup) (p : Preprocessor) (n : Nat) : Token :=
  ((p.afterCalls setup n).next setup).1

/-- The tokens after the first one are those of the run after the first call. -/
theorem given_next (setup : Setup) (p : Preprocessor) (n : Nat) :
    (p.next setup).2.given setup n = p.given setup (n + 1) := by
  rw [given, afterCalls_next, given]

theorem IsOrderly.afterCalls (orderly : p.IsOrderly) (n : Nat) : (p.afterCalls setup n).IsOrderly := by
  induction n with
  | zero => exact orderly
  | succ n ih => exact ih.next.1

/-- The calls after the one that gives the end of the file. -/
theorem IsOver.afterCalls (isOver : p.IsOver setup) (n : Nat) :
    (p.afterCalls setup n).IsOver setup ∧ Idles p (p.afterCalls setup n) := by
  induction n with
  | zero => exact ⟨isOver, rfl, rfl⟩
  | succ n ih =>
    obtain ⟨-, isOver', idles⟩ := ih.1.next
    exact ⟨isOver', ih.2.trans idles⟩

/-- Until the end of the file has been given, a run that may give more tokens gives the same ones. -/
theorem tokensWithin_eq {m : Nat} (goesOn : ∀ k, k < m → (p.given setup k).isEnd = false)
    (ends : (p.given setup m).isEnd = true) {n : Nat} (enough : m < n) :
    p.tokensWithin setup n
      = ((List.range (m + 1)).map (p.given setup), p.afterCalls setup (m + 1)) := by
  obtain ⟨n, rfl⟩ := Nat.exists_eq_add_of_lt enough
  induction m generalizing p with
  | zero => exact tokensWithin_of_isEnd ends _
  | succ m ih =>
    have later := given_next setup p
    have more : (p.next setup).1.isEnd = false := goesOn 0 (Nat.succ_pos m)
    have rest := ih (p := (p.next setup).2)
      (fun k early => (congrArg Token.isEnd (later k)).trans (goesOn (k + 1) (Nat.succ_lt_succ early)))
      ((congrArg Token.isEnd (later m)).trans ends) (by omega)
    have all : (List.range (m + 1 + 1)).map (p.given setup)
        = p.given setup 0 :: (List.range (m + 1)).map ((p.next setup).2.given setup) := by
      rw [List.range_succ_eq_map, List.map_cons, List.map_map, funext later]
      rfl
    rw [show m + 1 + n + 1 = (m + n + 1) + 1 by omega, tokensWithin_of_more more, rest, afterCalls_next,
      all]
    rfl

/-- The tokens of a run end with the end of a file, and with no other one. -/
theorem tokens_of_tokensWithin (setup : Setup) (p : Preprocessor) (n : Nat) :
    ∃ before final, (p.tokensWithin setup n).1 = before ++ [final] ∧ Inside before
      ∧ final.isEnd = true := by
  induction n generalizing p with
  | zero => exact ⟨[], p.finish.1, rfl, .nil, p.finish_facts.1⟩
  | succ n ih =>
    cases ends : (p.next setup).1.isEnd with
    | true => exact ⟨[], (p.next setup).1, by rw [tokensWithin_of_isEnd ends]; rfl, .nil, ends⟩
    | false =>
      obtain ⟨before, final, tokens, inside, isEnd⟩ := ih (p.next setup).2
      refine ⟨(p.next setup).1 :: before, final, ?_, inside.cons ends, isEnd⟩
      rw [tokensWithin_of_more ends, tokens]
      rfl

/-- The call for a token after `m` others is the first one that gives the end of the file. All later
ones give it too, and the reports, the macros and the status stay as that call has left them. -/
structure EndsWith (setup : Setup) (p : Preprocessor) (status : RunStatus) (m : Nat) : Prop where
  before : ∀ k, k < m → (p.given setup k).isEnd = false
  after : ∀ k, m ≤ k → (p.given setup k).isEnd = true
  tokens : ∀ n, m < n → p.tokensWithin setup n
    = ((List.range (m + 1)).map (p.given setup), p.afterCalls setup (m + 1))
  journal : ∀ k, m < k → (p.afterCalls setup k).journal = (p.afterCalls setup (m + 1)).journal
  macros : ∀ k, m < k → (p.afterCalls setup k).reader.session.macros
    = (p.afterCalls setup (m + 1)).reader.session.macros
  status : ∀ k, m < k → (p.afterCalls setup k).reader.status
    = if status = .ok ∧ setup.config.failFast = true
        ∧ 0 < (p.afterCalls setup (m + 1)).journal.errorCount then .aborted else status

/-- The status when a call gives the end of the file. -/
theorem status_of_isSettled (records : p.reader.Records setup q.reader) (settled : q.IsSettled setup) :
    q.reader.status
      = if p.reader.status = .ok ∧ setup.config.failFast = true ∧ 0 < q.journal.errorCount
        then .aborted else p.reader.status := by
  obtain same | ⟨ok, aborted, errors⟩ := records.status
  · split
    · rename_i errors
      exact absurd errors.2 (settled (same.trans errors.1))
    · exact same
  · rw [if_pos ⟨ok, errors⟩, aborted]

/-- A run comes to its end with the first call that gives the end of the file. -/
theorem endsWith_of_isEnd (orderly : p.IsOrderly) {m : Nat}
    (goesOn : ∀ k, k < m → (p.given setup k).isEnd = false)
    (ends : (p.given setup m).isEnd = true) : p.EndsWith setup p.reader.status m := by
  have isOver : (p.afterCalls setup (m + 1)).IsOver setup :=
    ⟨(orderly.afterCalls m).next.2 ends, isSettled_next ends⟩
  have later (k : Nat) (late : m < k) :
      Idles (p.afterCalls setup (m + 1)) (p.afterCalls setup k) ∧ (p.given setup k).isEnd = true := by
    obtain ⟨n, rfl⟩ := Nat.exists_eq_add_of_le (show m + 1 ≤ k from late)
    have same := p.afterCalls_afterCalls setup (m + 1) n
    obtain ⟨isOver', idles⟩ := isOver.afterCalls n
    rw [same] at isOver' idles
    exact ⟨idles, isOver'.next.1⟩
  refine ⟨goesOn, fun k late => ?_, fun n enough => tokensWithin_eq goesOn ends enough,
    fun k late => ?_, fun k late => ?_, fun k late => ?_⟩
  · obtain rfl | late := Nat.eq_or_lt_of_le late
    · exact ends
    · exact (later k late).2
  · exact congrArg Session.journal (later k late).1.session
  · exact congrArg Session.macros (later k late).1.session
  · rw [(later k late).1.status]
    exact status_of_isSettled (records_afterCalls setup p (m + 1)) isOver.settled

/-- A run that is opened starts orderly. -/
theorem isOrderly_of_builtins (idle : p.reader.queued = []) (nothing : p.pending = [])
    (builtins : p.reader.session.macros = MacroTable.addBuiltins {}) : p.IsOrderly where
  closed := ⟨idle ▸ .nil, fun body member => by
    have empty : ∀ body ∈ (MacroTable.addBuiltins {}).bodies, body = [] := by
      decide
    rw [builtins] at member
    rw [empty body member]
    exact .nil⟩
  pending := nothing ▸ .nil

/-- The run after it has failed to read some main files. -/
def afterFailures (p : Preprocessor) (failures : List (Text × SourceError)) : Preprocessor :=
  failures.foldl (fun p failure => (p.failRun failure.1 failure.2).2) p

/-- Failing to read a main file changes the reports and the status. -/
theorem exists_afterFailures (p : Preprocessor) (failures : List (Text × SourceError)) :
    ∃ expansion, p.afterFailures failures = { p with
      reader := { withExpansion p.reader expansion with
        status := if failures = [] then p.reader.status else .fatal } } := by
  induction failures generalizing p with
  | nil => exact ⟨p.reader.session.expansion, rfl⟩
  | cons failure more ih =>
    obtain ⟨expansion, same⟩ := ih (p.failRun failure.1 failure.2).2
    refine ⟨expansion, same.trans ?_⟩
    rw [if_neg (List.cons_ne_nil failure more)]
    split <;> rfl

/-- Opening a main file leaves what the run has learned. -/
theorem openMain_keeps {source : Except SourceError Source} {name : Text}
    (opening : p.openMain setup source name = .ok q) :
    q.pending = p.pending ∧ q.reader.queued = p.reader.queued ∧ q.reader.session = p.reader.session
      ∧ q.reader.status = p.reader.status := by
  unfold openMain at opening
  split at opening
  · cases opening
  · split at opening
    · cases opening
    · cases opening
      refine ⟨rfl, ?_⟩
      unfold openPreamble
      simp only []
      split <;> exact ⟨rfl, rfl, rfl⟩

/-- The tokens of a run end with the end of a file, and with no other one. The run comes to its end,
and after that a call changes nothing; it has then been ended if it is to end with its first error and
there is one, unless it has failed to read another main file before. Or it never comes to its end: then
it reports more and more errors, and it is not to end with its first one, or it has failed to read
another main file before. -/
theorem run_shape (created : create setup = .ok p) (failures : List (Text × SourceError))
    {source : Except SourceError Source} {name : Text}
    (opening : (p.afterFailures failures).openMain setup source name = .ok q) :
    (∀ n, ∃ before final, (q.tokensWithin setup n).1 = before ++ [final] ∧ Inside before
      ∧ final.isEnd = true)
    ∧ ((∃ m, q.EndsWith setup (if failures = [] then .ok else .fatal) m)
      ∨ (∀ m, (q.given setup m).isEnd = false)
        ∧ (∀ most, ∃ n, most < (q.afterCalls setup n).journal.errorCount)
        ∧ (failures = [] → setup.config.failFast = false)) := by
  have isNew := isNew_of_create created
  obtain ⟨expansion, failed⟩ := p.exists_afterFailures failures
  obtain ⟨pending, queued, session, status⟩ := openMain_keeps opening
  rw [failed] at pending queued session status
  have status : q.reader.status = if failures = [] then .ok else .fatal := by
    rw [status, ← isNew.ok]
  have orderly : q.IsOrderly :=
    isOrderly_of_builtins (queued.trans isNew.idle) (pending.trans isNew.pending)
      ((congrArg Session.macros session).trans isNew.macros)
  refine ⟨tokens_of_tokensWithin setup q, ?_⟩
  by_cases ends : ∃ m, (q.given setup m).isEnd = true
  · have first := Nat.find_spec ends
    have before (k : Nat) (early : k < Nat.find ends) : (q.given setup k).isEnd = false :=
      Bool.eq_false_iff.mpr (Nat.find_min ends early)
    rw [← status]
    exact .inl ⟨Nat.find ends, endsWith_of_isEnd orderly before first⟩
  · have goesOn (m : Nat) : (q.given setup m).isEnd = false :=
      Bool.eq_false_iff.mpr fun isEnd => ends ⟨m, isEnd⟩
    have unbounded (most : Nat) : ∃ n, most < (q.afterCalls setup n).journal.errorCount := by
      by_contra bounded
      exact ends (exists_isEnd fun n => Nat.le_of_not_lt fun more => bounded ⟨n, more⟩)
    refine .inr ⟨goesOn, unbounded, fun none => Bool.eq_false_iff.mpr fun failFast => ?_⟩
    obtain ⟨n, errors⟩ := unbounded 0
    have isOpen : q.IsOpen := by
      rw [IsOpen, status, if_pos none]
      simp
    have isOver := next_of_errors failFast (isOpen.of_records (records_afterCalls setup q n)) errors
    exact ends ⟨n, isOver.2⟩

/-! A run that does not find its main file and then reads another one. -/

/-- The file that is not found. -/
def missingFile : List (Text × SourceError) :=
  [(['n'], .cannotOpen ['n'])]

theorem run_shape_missing :
    create strictSetup = .ok Reader.freshRun
      ∧ ∃ q, (Reader.freshRun.afterFailures missingFile).openMain strictSetup
          (.ok (.ofDecoded false erroneousText)) ['m'] = .ok q
        ∧ (∀ n, ∃ before final, (q.tokensWithin strictSetup n).1 = before ++ [final] ∧ Inside before
          ∧ final.isEnd = true)
        ∧ ((∃ m, q.EndsWith strictSetup .fatal m)
          ∨ (∀ m, (q.given strictSetup m).isEnd = false)
            ∧ (∀ most, ∃ n, most < (q.afterCalls strictSetup n).journal.errorCount)
            ∧ (missingFile = [] → strictSetup.config.failFast = false)) := by
  have created : create strictSetup = .ok Reader.freshRun := rfl
  have opening : (Reader.freshRun.afterFailures missingFile).openMain strictSetup
      (.ok (.ofDecoded false erroneousText)) ['m'] = .ok _ := rfl
  exact ⟨created, _, opening, run_shape created missingFile opening⟩

end Preprocessor

end CPreprocessor
