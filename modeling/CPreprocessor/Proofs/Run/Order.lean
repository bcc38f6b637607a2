/-
# Ends of files come last

Argument collection and pragma operators take the end of the main file as they take other
tokens, and give it back. It never gets in front of anything: replacement lists and passed
directives have no end of a file in them (`Reader.IsSealed`), so an end is pending only
when nothing is left to read, and nothing but ends stands behind it
(`Preprocessor.IsOrderly`). Every call for a token keeps this, and after the call that
gives the end nothing is left (`IsOrderly.next`).
-/
import CPreprocessor.Proofs.Directive.Macros
import CPreprocessor.Proofs.Run.FailFast
import CPreprocessor.Proofs.Run.Streaming

namespace CPreprocessor

/-- The tokens of a directive do not end the file. -/
theorem Lexer.inside_tokens_of_item {l after : Lexer} {d : Directive}
    (here : l.item = (.directive d, after)) : Inside d.tokens := by
  unfold Lexer.item at here
  split at here
  · cases here
  · rename_i more
    split at here
    · cases here
      have line := l.next.2.inside_restOfLine
      refine .cons (Bool.eq_false_iff.mpr more) (.append (fun token member => ?_) ?_)
      · exact line token (List.mem_of_mem_head? (by simpa [directive] using member))
      · exact line.of_subset (List.drop_subset 1 _)
    · cases here

theorem Directive.inside_args {d : Directive} (inside : Inside d.tokens) : Inside d.args :=
  inside.of_subset (List.subset_cons_of_subset _ (List.subset_append_right _ _))

namespace Reader

variable {setup : Setup} {r next : Reader}

theorem Beside.isFinished (beside : r.Beside next) (finished : r.IsFinished) : next.IsFinished :=
  ⟨beside.queued.trans finished.1, finished.2.imp beside.frames.trans beside.ended⟩

/-- No end of a file waits with the tokens of passed directives, or stands in a replacement list. -/
structure IsSealed (r : Reader) : Prop where
  queued : Inside r.queued
  bodies : ∀ body ∈ r.session.macros.bodies, Inside body

theorem IsSealed.of_same (closed : r.IsSealed) (queued : next.queued = r.queued)
    (macros : next.session.macros = r.session.macros) : next.IsSealed :=
  ⟨queued ▸ closed.queued, macros ▸ closed.bodies⟩

theorem IsSealed.checkAbort (closed : r.IsSealed) : (r.checkAbort setup).IsSealed := by
  unfold Reader.checkAbort
  split
  · exact closed.of_same rfl rfl
  · exact closed

theorem IsSealed.reportSpelling (closed : r.IsSealed) (token : Token) :
    (r.reportSpelling setup token).IsSealed := by
  unfold Reader.reportSpelling
  split
  · have told : IsSealed { r with session := r.session.reportSpelling token } :=
      closed.of_same rfl (r.session.macros_reportSpelling token)
    exact told.checkAbort
  · exact closed

theorem IsSealed.finish (closed : r.IsSealed) : r.finish.2.IsSealed :=
  closed.of_same finish_isEnd.2.2.1 (congrArg Session.macros finish_isEnd.2.2.2)

theorem macros_closeConditions (frame : Frame) (s : Session) :
    (closeConditions frame s).macros = s.macros := by
  obtain ⟨journal, closed⟩ := exists_closeConditions frame s
  rw [closed]
  rfl

theorem IsSealed.closeFile (closed : r.IsSealed) (frame : Frame) (outer : List Frame)
    (final : { token : Token // token.isEnd = true }) :
    (r.closeFile setup frame outer final).IsSealed := by
  have reported : (if r.session.conditions.isLive then r.reportSpelling setup final.1
      else r).IsSealed := by
    split
    · exact closed.reportSpelling final.1
    · exact closed
  unfold Reader.closeFile
  exact reported.of_same rfl (macros_closeConditions frame _)

theorem IsSealed.enter (closed : r.IsSealed) (header : Header) (site : Token) :
    (r.enter setup header site).IsSealed := by
  unfold Reader.enter
  split
  · exact closed
  · split
    · split
      · exact closed
      · exact closed.of_same rfl rfl
    · unfold Reader.openHeader
      simp only []
      split
      · exact closed.of_same rfl rfl
      · split
        · exact closed.of_same rfl rfl
        · exact closed.of_same rfl rfl

theorem IsSealed.afterDirective (closed : r.IsSealed) (frame : Frame) (outer : List Frame)
    {d : Directive} (line : Inside d.tokens) : (r.afterDirective setup frame outer d).IsSealed := by
  have executed : ∀ body ∈ (d.execute setup r.place r.session).2.macros.bodies, Inside body := by
    intro body member
    obtain old | new := d.mem_bodies_execute setup r.place r.session member
    · exact closed.bodies body old
    · exact (Directive.inside_args line).of_subset new
  unfold Reader.afterDirective
  refine IsSealed.checkAbort ?_
  cases (d.execute setup r.place r.session).1 with
  | nothing => exact ⟨closed.queued, executed⟩
  | enter header site =>
    have entering (frames : List Frame) : ({ r with
        session := (d.execute setup r.place r.session).2, frames } : Reader).IsSealed :=
      ⟨closed.queued, executed⟩
    exact (entering _).enter header site
  | present number name => exact ⟨closed.queued, executed⟩
  | pass =>
    refine ⟨closed.queued.append fun token member => ?_, executed⟩
    obtain ⟨written, inLine, rfl⟩ := List.mem_map.mp member
    exact line written inLine
  | once => exact ⟨closed.queued, executed⟩

theorem IsSealed.step (closed : r.IsSealed) {token : Token}
    (stepped : r.step setup = .give token next ∨ r.step setup = .goOn next) : next.IsSealed := by
  have cases_of := r.stepped setup
  obtain stepped | stepped := stepped
  all_goals
    rw [stepped] at cases_of
    cases cases_of
  case inl.waits waiting =>
    have inside := closed.queued
    rw [waiting] at inside
    exact ⟨(List.forall_mem_cons.mp inside).2, closed.bodies⟩
  case inl.finished => exact closed.finish
  case inl.counts =>
    have taking (frames : List Frame) : ({ r with frames } : Reader).IsSealed :=
      closed.of_same rfl rfl
    exact (taking _).reportSpelling _
  case inr.closes => exact closed.closeFile _ _ _
  case inr.carriesOut here => exact closed.afterDirective _ _ (Lexer.inside_tokens_of_item here)
  case inr.passesOver => exact closed.of_same rfl rfl

theorem IsFinished.finish (finished : r.IsFinished) : r.finish.2.IsFinished := by
  unfold Reader.finish
  split <;> exact finished

/-- A step gives the end of a file only when nothing is left to read. -/
theorem IsSealed.isFinished_of_give (closed : r.IsSealed) {token : Token}
    (stepped : r.step setup = .give token next) (isEnd : token.isEnd = true) : next.IsFinished := by
  have cases_of := r.stepped setup
  rw [stepped] at cases_of
  cases cases_of with
  | waits waiting =>
    rw [closed.queued _ (waiting ▸ List.mem_cons_self)] at isEnd
    cases isEnd
  | finished isFinished => exact isFinished.finish
  | counts idle isOpen running here live =>
    unfold Lexer.item at here
    split at here
    · cases here
    · rename_i more
      split at here
      · cases here
      · cases here
        exact absurd isEnd more

theorem IsSealed.pull (setup : Setup) (closed : r.IsSealed) :
    (r.pull setup).2.IsSealed
      ∧ ((r.pull setup).1.isEnd = true → (r.pull setup).2.IsFinished) := by
  fun_induction Reader.pull setup r with
  | case1 r token after stepped =>
    exact ⟨closed.step (.inl stepped), closed.isFinished_of_give stepped⟩
  | case2 r after stepped ih =>
    exact ih (closed.step (.inr stepped : r.step setup = .give .endOfNothing after ∨ _))

end Reader

/-- What was read inside a call before it is closed does not end the file. -/
theorem Arguments.inside_of_depthAfter {depth inner : Nat} {tokens : List Token}
    (goesOn : depthAfter depth tokens = some inner) : Inside tokens := by
  induction tokens generalizing depth with
  | nil => exact .nil
  | cons token rest ih =>
    rw [depthAfter] at goesOn
    split at goesOn
    · cases goesOn
    · rename_i more
      refine .cons (Bool.eq_false_iff.mpr more) ?_
      split at goesOn
      · split at goesOn
        · cases goesOn
        · exact ih goesOn
      · exact ih goesOn

namespace Preprocessor

variable {setup : Setup}

/-! ## Tokens with ends behind them -/

/-- Nothing but ends of files stands behind an end of a file, and there is one only if the reader has
nothing left to read. -/
structure EndsLast (r : Reader) (tokens : List Token) : Prop where
  order : tokens.Pairwise fun a b => a.isEnd = true → b.isEnd = true
  finished : ∀ token ∈ tokens, token.isEnd = true → r.IsFinished

namespace EndsLast

variable {r next : Reader} {token : Token} {first tokens : List Token}

theorem cons (more : EndsLast r tokens)
    (ends : token.isEnd = true → r.IsFinished ∧ ∀ other ∈ tokens, other.isEnd = true) :
    EndsLast r (token :: tokens) where
  order := List.pairwise_cons.mpr ⟨fun other member isEnd => (ends isEnd).2 other member, more.order⟩
  finished := List.forall_mem_cons.mpr ⟨fun isEnd => (ends isEnd).1, more.finished⟩

theorem tail (last : EndsLast r (token :: tokens)) :
    EndsLast r tokens
      ∧ (token.isEnd = true → r.IsFinished ∧ ∀ other ∈ tokens, other.isEnd = true) := by
  obtain ⟨behind, order⟩ := List.pairwise_cons.mp last.order
  obtain ⟨here, later⟩ := List.forall_mem_cons.mp last.finished
  exact ⟨⟨order, later⟩, fun isEnd => ⟨here isEnd, fun other member => behind other member isEnd⟩⟩

theorem nil : EndsLast r [] :=
  ⟨List.Pairwise.nil, List.forall_mem_nil _⟩

theorem append (inside : Inside first) (more : EndsLast r tokens) : EndsLast r (first ++ tokens) := by
  induction first with
  | nil => exact more
  | cons token rest ih =>
    obtain ⟨here, later⟩ := List.forall_mem_cons.mp inside
    refine (ih later).cons fun isEnd => ?_
    rw [here] at isEnd
    cases isEnd

theorem of_suffix (last : EndsLast r tokens) (suffix : first <:+ tokens) : EndsLast r first :=
  ⟨last.order.sublist suffix.sublist, fun token member => last.finished token (suffix.subset member)⟩

theorem of_reader (last : EndsLast r tokens) (finished : r.IsFinished → next.IsFinished) :
    EndsLast next tokens :=
  ⟨last.order, fun token member isEnd => finished (last.finished token member isEnd)⟩

end EndsLast

/-! ## Orderly states -/

/-- No end of a file gets in front of anything. -/
structure IsOrderly (p : Preprocessor) : Prop where
  closed : p.reader.IsSealed
  pending : EndsLast p.reader p.pending

/-- Nothing is left of the main file but its end. -/
structure IsAtEnd (p : Preprocessor) : Prop where
  finished : p.reader.IsFinished
  pending : ∀ token ∈ p.pending, token.isEnd = true

/-- The state after a token is orderly, and at the end if the token ends the file. -/
structure Leaves (result : Token × Preprocessor) : Prop where
  orderly : result.2.IsOrderly
  atEnd : result.1.isEnd = true → result.2.IsAtEnd

/-- Other reports, definitions set aside or restored, and marked files leave the state orderly. -/
theorem IsOrderly.of_beside {p : Preprocessor} (orderly : p.IsOrderly) {r : Reader}
    (beside : p.reader.Beside r) (bodies : r.session.macros.bodies ⊆ p.reader.session.macros.bodies) :
    ({ p with reader := r } : Preprocessor).IsOrderly where
  closed := ⟨beside.queued ▸ orderly.closed.queued,
    fun body member => orderly.closed.bodies body (bodies member)⟩
  pending := orderly.pending.of_reader beside.isFinished

variable {p : Preprocessor}

theorem IsOrderly.take (setup : Setup) (orderly : p.IsOrderly) : Leaves (p.take setup) := by
  unfold Preprocessor.take
  cases pending : p.pending with
  | cons token rest =>
    have last := orderly.pending
    rw [pending] at last
    obtain ⟨more, ends⟩ := last.tail
    exact ⟨⟨orderly.closed, more⟩, fun isEnd => ⟨(ends isEnd).1, (ends isEnd).2⟩⟩
  | nil =>
    obtain ⟨closed, finished⟩ := orderly.closed.pull setup
    exact ⟨⟨closed, .nil⟩, fun isEnd => ⟨finished isEnd, List.forall_mem_nil _⟩⟩

/-! ## Arguments -/

/-- The reader is sealed, and ends of files stand last among the tokens that were gathered. -/
structure IsGathered (gathered : List Token × Reader) : Prop where
  closed : gathered.2.IsSealed
  tokens : EndsLast gathered.2 gathered.1

theorem isGathered_gather (setup : Setup) {r : Reader} (closed : r.IsSealed) (depth : Nat) :
    IsGathered (gather setup depth r) := by
  fun_induction gather setup depth r with
  | case1 depth r ended =>
    obtain ⟨closed', finished⟩ := closed.pull setup
    exact ⟨closed', EndsLast.nil.cons fun isEnd => ⟨finished isEnd, List.forall_mem_nil _⟩⟩
  | case2 depth r inner goesOn more ih =>
    have later := ih (closed.pull setup).1
    exact ⟨later.closed, later.tokens.append (Arguments.inside_of_depthAfter goesOn)⟩

theorem isGathered_gatherFrom {r : Reader} (closed : r.IsSealed) {opening : Token} {inner : List Token}
    (last : EndsLast r (opening :: inner)) : IsGathered (gatherFrom setup opening inner r) := by
  unfold gatherFrom
  split
  · exact ⟨closed, last⟩
  · rename_i depth goesOn
    split at goesOn
    · rename_i isOpen
      have more : opening.isEnd = false :=
        Bool.eq_false_iff.mpr fun isEnd => by rw [isOpen_of_isEnd isEnd] at isOpen; cases isOpen
      have inside : Inside (opening :: inner) :=
        .cons more (Arguments.inside_of_depthAfter goesOn)
      have later := isGathered_gather setup closed depth
      exact ⟨later.closed, later.tokens.append inside⟩
    · cases goesOn

theorem isGathered_gatherCall {r : Reader} (closed : r.IsSealed) {pending : List Token}
    (last : EndsLast r pending) : IsGathered (gatherCall setup r pending) := by
  cases pending with
  | cons opening inner => exact isGathered_gatherFrom closed last
  | nil =>
    obtain ⟨closed', finished⟩ := closed.pull setup
    exact isGathered_gatherFrom closed'
      (EndsLast.nil.cons fun isEnd => ⟨finished isEnd, List.forall_mem_nil _⟩)

/-- A head is read from tokens among which ends of files stand last. -/
theorem IsOrderly.headOfMacro (setup : Setup) (orderly : p.IsOrderly) (m : Macro) (site : Token) :
    ∃ gathered, (headOfMacro setup m site p).1 = Head.ofMacro m site gathered
      ∧ IsGathered (gathered, (headOfMacro setup m site p).2) := by
  unfold Preprocessor.headOfMacro
  split
  · exact ⟨_, rfl, isGathered_gatherCall orderly.closed orderly.pending⟩
  · exact ⟨_, rfl, orderly.closed, orderly.pending⟩

/-! ## Calls for a token -/

theorem IsGathered.leaves {site : Token} (more : site.isEnd = false) {gathered : List Token}
    {r next : Reader} (found : IsGathered (gathered, r)) (beside : r.Beside next)
    (macros : next.session.macros = r.session.macros) :
    Leaves (site, { reader := next, pending := gathered }) where
  orderly := IsOrderly.of_beside (p := { reader := r, pending := gathered })
    ⟨found.closed, found.tokens⟩ beside (macros ▸ List.Subset.refl _)
  atEnd isEnd := by
    rw [more] at isEnd
    cases isEnd

/-- An expanded token leaves the state orderly. -/
theorem IsOrderly.expandNext (setup : Setup) (orderly : p.IsOrderly) : Leaves (p.expandNext setup) := by
  fun_induction Preprocessor.expandNext setup p with
  | case1 p site q taken notCalled => exact taken ▸ orderly.take setup
  | case2 p site q taken m called token rest r found =>
    have took := taken ▸ orderly.take setup
    obtain ⟨gathered, head, isGathered⟩ := took.orderly.headOfMacro setup m site
    rw [found] at head isGathered
    obtain rfl := Head.rest_of_ofMacro.1 _ _ head.symm
    exact isGathered.leaves (Head.isEnd_of_called? called) (.refl r) rfl
  | case3 p site q taken m called kind token rest r found done =>
    have took := taken ▸ orderly.take setup
    obtain ⟨gathered, head, isGathered⟩ := took.orderly.headOfMacro setup m site
    rw [found] at head isGathered
    obtain rfl := Head.rest_of_ofMacro.2.1 _ _ _ head.symm
    exact isGathered.leaves (Expansion.isEnd_expandBuiltin _ kind site _) ⟨rfl, rfl, rfl, rfl, id⟩ rfl
  | case4 p site q taken m called code token rest r found =>
    have took := taken ▸ orderly.take setup
    obtain ⟨gathered, head, isGathered⟩ := took.orderly.headOfMacro setup m site
    rw [found] at head isGathered
    obtain rfl := Head.rest_of_ofMacro.2.2 _ _ _ head.symm
    exact isGathered.leaves (Head.isEnd_of_called? called) ⟨rfl, rfl, rfl, rfl, id⟩ rfl
  | case5 p site q taken m called c r found ih =>
    have took := taken ▸ orderly.take setup
    obtain ⟨gathered, head, isGathered⟩ := took.orderly.headOfMacro setup m site
    rw [found] at head isGathered
    have body : Inside m.body := took.orderly.closed.bodies m.body
      (MacroTable.mem_bodies.mpr (.inl ⟨m, Head.mem_of_called? called, rfl⟩))
    have replaced := Expansion.inside_expandCall (context setup r) body head.symm r.session.expansion
    have rest := isGathered.tokens.of_suffix (Head.rest_suffix_of_ofMacro head.symm)
    have same : r.IsFinished → (replaceCall setup r c).reader.IsFinished := id
    exact ih ⟨isGathered.closed.of_same rfl rfl, (rest.of_reader same).append replaced⟩

/-! ## At the end -/

theorem IsAtEnd.of_beside (atEnd : p.IsAtEnd) {r : Reader} (beside : p.reader.Beside r) :
    ({ p with reader := r } : Preprocessor).IsAtEnd :=
  ⟨beside.isFinished atEnd.finished, atEnd.pending⟩

/-- The second state differs from the first one in the ends of files that it still gives. -/
structure Idles (p q : Preprocessor) : Prop where
  session : q.reader.session = p.reader.session
  status : q.reader.status = p.reader.status

theorem Idles.trans {q after : Preprocessor} (idles : Idles p q) (more : Idles q after) :
    Idles p after :=
  ⟨more.session.trans idles.session, more.status.trans idles.status⟩

theorem idles_finish (p : Preprocessor) : Idles p p.finish.2 := by
  unfold finish Reader.finish
  split <;> exact ⟨rfl, rfl⟩

theorem IsAtEnd.take (setup : Setup) (atEnd : p.IsAtEnd) :
    (p.take setup).1.isEnd = true ∧ (p.take setup).2.IsAtEnd ∧ Idles p (p.take setup).2 := by
  have finishes := p.idles_finish
  unfold Preprocessor.take
  cases pending : p.pending with
  | cons token rest =>
    have ends := atEnd.pending
    rw [pending] at ends
    obtain ⟨here, later⟩ := List.forall_mem_cons.mp ends
    exact ⟨here, ⟨atEnd.finished, later⟩, rfl, rfl⟩
  | nil =>
    rw [Reader.pull_of_isFinished atEnd.finished]
    exact ⟨p.finish_facts.1, ⟨atEnd.finished.finish, List.forall_mem_nil _⟩, finishes.session,
      finishes.status⟩

/-- At the end of the main file its end is expanded, and nothing changes. -/
theorem IsAtEnd.expandNext (setup : Setup) (atEnd : p.IsAtEnd) :
    (p.expandNext setup).1.isEnd = true ∧ (p.expandNext setup).2.IsAtEnd
      ∧ Idles p (p.expandNext setup).2 := by
  have took := atEnd.take setup
  have stays := expandNext_of_none (rfl : p.take setup = _) (called?_of_isEnd took.1)
  rwa [stays]

/-! ## Pragma operators -/

/-- The operand of a pragma operator leaves the state orderly. -/
theorem IsOrderly.readOperand (setup : Setup) (orderly : p.IsOrderly) (keyword : Token) :
    (p.readOperand setup keyword).2.IsOrderly := by
  have opening := orderly.expandNext setup
  cases isOpen : (p.expandNext setup).1.isOpen with
  | false =>
    rw [readOperand_of_not_isOpen keyword isOpen]
    exact ⟨opening.orderly.closed, opening.orderly.pending.cons fun isEnd =>
      ⟨(opening.atEnd isEnd).finished, (opening.atEnd isEnd).pending⟩⟩
  | true =>
    have literal := opening.orderly.expandNext setup
    have close := literal.orderly.expandNext setup
    rw [readOperand_of_isOpen keyword isOpen, closeOperand]
    split
    · exact close.orderly
    · generalize (p.expandNext setup).2.expandNext setup = read at literal close ⊢
      have more : (p.expandNext setup).1.isEnd = false :=
        Bool.eq_false_iff.mpr fun isEnd => by rw [isOpen_of_isEnd isEnd] at isOpen; cases isOpen
      have last : EndsLast (read.2.expandNext setup).2.reader
          (read.1 :: (read.2.expandNext setup).1 :: (read.2.expandNext setup).2.pending) := by
        refine (close.orderly.pending.cons fun isEnd =>
          ⟨(close.atEnd isEnd).finished, (close.atEnd isEnd).pending⟩).cons fun isEnd => ?_
        obtain ⟨closeEnds, atEnd, -⟩ := (literal.atEnd isEnd).expandNext setup
        exact ⟨atEnd.finished, List.forall_mem_cons.mpr ⟨closeEnds, atEnd.pending⟩⟩
      exact ⟨close.orderly.closed.of_same rfl rfl,
        (last.append (.cons more .nil)).of_reader id⟩

/-- An operand that is passed on does not end the file. -/
theorem inside_operand {keyword : Token} {operand : PragmaOperand} {q : Preprocessor}
    (read : p.readOperand setup keyword = (some operand, q)) :
    Inside ([operand.opening, operand.literal, operand.close].map verbatim) := by
  have more {token : Token} (kind : token.kind ≠ .endOfFile) : (verbatim token).isEnd = false := by
    simpa [Token.isEnd, verbatim] using kind
  cases isOpen : (p.expandNext setup).1.isOpen with
  | false =>
    rw [readOperand_of_not_isOpen keyword isOpen] at read
    cases read
  | true =>
    rw [readOperand_of_isOpen keyword isOpen, closeOperand] at read
    split at read
    · rename_i form
      cases read
      simp only [Bool.and_eq_true, decide_eq_true_eq] at form
      have opens := (Token.isPunctuator_iff.mp isOpen).1
      have closes := (Token.isPunctuator_iff.mp form.2).1
      exact .cons (more (by simp [opens])) (.cons (more (by simp [form.1]))
        (.cons (more (by simp [closes])) .nil))
    · cases read

/-- Carrying out a pragma operator leaves the state orderly. -/
theorem IsOrderly.applyPragma (setup : Setup) (orderly : p.IsOrderly) (keyword literal : Token) :
    (p.applyPragma setup keyword literal).2.IsOrderly := by
  have executed (args : List Token) : (p.executePragma setup keyword args).2.IsOrderly := by
    unfold Preprocessor.executePragma
    simp only []
    split
    · exact orderly.of_beside ⟨rfl, rfl, rfl, Directive.conditions_pragma _ _ _ _, id⟩
        (Directive.bodies_pragma_subset _ _ _ _)
    · exact orderly
  unfold Preprocessor.applyPragma
  split
  · exact orderly.of_beside ⟨rfl, rfl, rfl, rfl, id⟩ (List.Subset.refl _)
  · rename_i args _
    have after := executed args
    split
    all_goals
      rename_i done
      rw [done] at after
    · rw [markOnce_eq]
      exact after.of_beside ⟨rfl, rfl, rfl, rfl, id⟩ (List.Subset.refl _)
    · exact after
    · exact after

/-! ## Whole calls -/

theorem IsOrderly.checkAbort (orderly : p.IsOrderly) : (p.checkAbort setup).IsOrderly := by
  have beside := Reader.beside_checkAbort setup p.reader
  have session : (p.reader.checkAbort setup).session = p.reader.session := by
    unfold Reader.checkAbort
    split <;> rfl
  exact orderly.of_beside beside (by rw [session]; exact List.Subset.refl _)

theorem IsOrderly.finish (orderly : p.IsOrderly) : p.finish.2.IsOrderly := by
  have session : p.reader.finish.2.session = p.reader.session := p.idles_finish.session
  exact orderly.of_beside (Reader.beside_finish p.reader)
    (by rw [session]; exact List.Subset.refl _)

/-- The run has come to its end: it has been ended, or nothing is left of the main file. -/
def HasEnded (p : Preprocessor) : Prop :=
  p.isAborted = true ∨ p.IsAtEnd

theorem hasEnded_finish (aborted : p.isAborted = true) : p.finish.2.HasEnded :=
  .inl (p.finish_facts.2.1.trans aborted)

/-- A call leaves the state orderly, and the run has come to its end if the call gives the end of the
file. -/
theorem IsOrderly.next (orderly : p.IsOrderly) :
    (p.next setup).2.IsOrderly ∧ ((p.next setup).1.isEnd = true → (p.next setup).2.HasEnded) := by
  have given {token : Token} {q : Preprocessor} (orderly : q.IsOrderly)
      (atEnd : token.isEnd = true → q.IsAtEnd) :
      (give token q).2.IsOrderly ∧ ((give token q).1.isEnd = true → (give token q).2.HasEnded) := by
    unfold give
    split
    · rename_i aborted
      exact ⟨orderly.finish, fun _ => hasEnded_finish aborted⟩
    · exact ⟨orderly, fun isEnd => .inr (atEnd isEnd)⟩
  fun_induction Preprocessor.next setup p with
  | case1 p aborted => exact ⟨orderly.finish, fun _ => hasEnded_finish aborted⟩
  | case2 p running token q starts aborted =>
    exact ⟨(orderly.expandNext setup).orderly.checkAbort.finish, fun _ => hasEnded_finish aborted⟩
  | case3 p running token q starts goesOn q' read =>
    have asked : q.IsOrderly := (orderly.expandNext setup).orderly.checkAbort
    have operand := asked.readOperand setup token
    rw [read] at operand
    refine ⟨operand, fun isEnd => ?_⟩
    rw [startsPragma_of_isEnd isEnd] at starts
    cases starts
  | case4 p running token q starts goesOn operand q' read done applied =>
    have asked : q.IsOrderly := (orderly.expandNext setup).orderly.checkAbort
    have read' := asked.readOperand setup token
    rw [read] at read'
    have carried := read'.applyPragma setup token operand.literal
    rw [applied] at carried
    have kept : (done.checkAbort setup).IsOrderly := carried.checkAbort
    have passed : ((done.checkAbort setup).passOperand operand).IsOrderly :=
      ⟨kept.closed, kept.pending.append (inside_operand read)⟩
    refine given passed fun isEnd => ?_
    have isEnd : token.isEnd = true := isEnd
    rw [startsPragma_of_isEnd isEnd] at starts
    cases starts
  | case5 p running token q starts goesOn operand q' read done applied ih =>
    have asked : q.IsOrderly := (orderly.expandNext setup).orderly.checkAbort
    have read' := asked.readOperand setup token
    rw [read] at read'
    have carried := read'.applyPragma setup token operand.literal
    rw [applied] at carried
    exact ih carried
  | case6 p running token q plain =>
    have expanded := orderly.expandNext setup
    exact given expanded.orderly.checkAbort fun isEnd =>
      (expanded.atEnd isEnd).of_beside (Reader.beside_checkAbort setup _)

end Preprocessor

end CPreprocessor
