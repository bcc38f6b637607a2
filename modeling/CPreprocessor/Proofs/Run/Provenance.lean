/-
# Where expanded tokens come from

A token that has come out of macro calls remembers the names by which the macros were
called. The last of these names was read from a file where the run passed it, and the token
and all the names stand at its place; the first of them is hidden in the token
(`Token.IsTraced`). What replaces a call is traced from the name of the call alone, whatever
the body and the arguments are, so the property holds of everything that is pending in a run
(`Preprocessor.IsTracked`) and of every token that the run gives
(`Preprocessor.isTraced_tokensWithin`).
-/
import CPreprocessor.Proofs.Run.Inlining
import CPreprocessor.Proofs.Run.PassedLines
import CPreprocessor.Proofs.Run.Playing
import CPreprocessor.Proofs.Run.Shape

namespace CPreprocessor

/-- The token has come out of macro calls, and the last name in the chain of the calls is `origin`,
which has not come out of a call itself. -/
structure Token.IsTraced (token origin : Token) : Prop where
  written : origin.calls = []
  last : token.calls.getLast? = some origin.callSite
  file : token.file = origin.file
  line : token.line = origin.line
  column : token.column = origin.column
  offset : token.offset = origin.offset
  /-- All names in the chain stand at one place. -/
  chain : ∀ call ∈ token.calls, call = { origin.callSite with lexeme := call.lexeme }
  /-- The name of the nearest call is hidden. -/
  hidden : ∀ call ∈ token.calls.head?, call.lexeme ∈ token.hideSet

/-! ## Lexers -/

/-- The tokens of an item. -/
def Item.tokens : Item → List Token
  | .token given => [given]
  | .directive d => d.tokens
  | .finish final => [final.1]

namespace Lexer

theorem calls_takeLexeme (l : Lexer) : l.takeLexeme.1.calls = [] := by
  unfold takeLexeme
  split <;> rfl

variable {l : Lexer}

theorem IsBare.calls_next (bare : l.IsBare) : l.next.1.calls = [] := by
  rw [bare.next_eq]
  exact calls_takeLexeme _

theorem IsBare.calls_nextOnLine (bare : l.IsBare) : ∀ token ∈ l.nextOnLine.1, token.calls = [] := by
  unfold Lexer.nextOnLine
  rw [bare.fresh]
  simp only []
  split
  · simp
  · rintro token ⟨⟩
    exact calls_takeLexeme _

/-- The tokens of a line have not come out of macro calls. -/
theorem IsBare.calls_restOfLine (bare : l.IsBare) (inLine : l.atLineStart = false) :
    ∀ token ∈ l.restOfLine.1, token.calls = [] := by
  induction more : l.size using Nat.strongRecOn generalizing l with
  | ind size ih =>
    obtain ⟨bare', inLine', -, -⟩ := bare.nextOnLine inLine
    have first := bare.calls_nextOnLine
    cases found : l.nextOnLine.1 with
    | none =>
      rw [restOfLine_of_none found]
      exact List.forall_mem_nil _
    | some token =>
      rw [restOfLine_of_some found]
      exact List.forall_mem_cons.mpr
        ⟨first token found, ih _ (more ▸ size_nextOnLine_lt found) bare' inLine' rfl⟩

/-- What a file gives has not come out of macro calls. -/
theorem IsBare.calls_item (bare : l.IsBare) : ∀ token ∈ l.item.1.tokens, token.calls = [] := by
  unfold Lexer.item
  split
  · exact List.forall_mem_singleton.mpr bare.calls_next
  · split
    · have line := bare.next.1.calls_restOfLine bare.next.2
      refine List.forall_mem_cons.mpr ⟨bare.calls_next, List.forall_mem_append.mpr ⟨?_, ?_⟩⟩
      · exact fun token named => line token (List.mem_of_mem_head? (by simpa [Lexer.directive] using named))
      · exact fun token argument => line token (List.mem_of_mem_drop argument)
    · exact List.forall_mem_singleton.mpr bare.calls_next

end Lexer

/-! ## Readers -/

namespace Reader

variable {setup : Setup} {r next : Reader}

/-- The next token of the innermost file counts, and the next step reads it. -/
structure Faces (r : Reader) (token : Token) : Prop where
  idle : r.queued = []
  running : r.status ≠ .aborted
  live : r.session.conditions.isLive = true
  here : ∃ frame ∈ r.frames.head?, ∃ rest, frame.lexer.item = (.token token, rest)

/-- Nothing that the reader can give without reading a file has come out of macro calls, no lexer has
looked ahead, and builtin macros go by their own names. -/
structure IsFaithful (r : Reader) : Prop extends OnLines r where
  queued : ∀ token ∈ r.queued, token.verbatim = true ∧ token.calls = []
  ending : ∀ final ∈ r.ending, final.1.calls = []
  builtins : ∀ entry ∈ r.session.macros.builtins, entry.1 = entry.2.name

theorem IsFaithful.of_same (faithful : r.IsFaithful) (frames : next.frames = r.frames)
    (queued : next.queued = r.queued) (ending : next.ending = r.ending)
    (builtins : next.session.macros.builtins ⊆ r.session.macros.builtins) : next.IsFaithful where
  toOnLines := faithful.toOnLines.of_frames frames
  queued := queued ▸ faithful.queued
  ending := ending ▸ faithful.ending
  builtins entry member := faithful.builtins entry (builtins member)

theorem IsFaithful.checkAbort (faithful : r.IsFaithful) : (r.checkAbort setup).IsFaithful := by
  unfold Reader.checkAbort
  split
  · exact faithful.of_same rfl rfl rfl (List.Subset.refl _)
  · exact faithful

theorem IsFaithful.finish (faithful : r.IsFaithful) :
    r.finish.2.IsFaithful ∧ r.finish.1.calls = [] := by
  unfold Reader.finish
  split
  · rename_i final same
    exact ⟨faithful, faithful.ending final same⟩
  · exact ⟨{ faithful with ending := by rintro final ⟨⟩; rfl }, rfl⟩

theorem ending_reportSpelling (token : Token) : (r.reportSpelling setup token).ending = r.ending := by
  obtain ⟨status, same⟩ := exists_reportSpelling setup r token
  rw [same]

theorem queued_reportSpelling (token : Token) : (r.reportSpelling setup token).queued = r.queued := by
  obtain ⟨status, same⟩ := exists_reportSpelling setup r token
  rw [same]

theorem ending_enter (header : Header) (site : Token) :
    (r.enter setup header site).ending = r.ending := by
  unfold Reader.enter openHeader
  simp only []
  repeat' split
  all_goals rfl

theorem macros_enter (header : Header) (site : Token) :
    (r.enter setup header site).session.macros = r.session.macros := by
  unfold Reader.enter openHeader
  simp only []
  repeat' split
  all_goals rfl

/-- A directive that is passed on waits with tokens that are not expanded; no other directive makes
tokens wait, and none ends the main file. The macros are those that the directive leaves. -/
theorem parts_afterDirective (setup : Setup) (r : Reader) (frame : Frame) (outer : List Frame)
    (d : Directive) :
    ((r.afterDirective setup frame outer d).queued = r.queued
      ∨ (r.afterDirective setup frame outer d).queued
          = r.queued ++ d.tokens.map Preprocessor.verbatim)
    ∧ (r.afterDirective setup frame outer d).ending = r.ending
    ∧ (r.afterDirective setup frame outer d).session.macros
        = (d.execute setup r.place r.session).2.macros := by
  have kept (r : Reader) :
      (r.checkAbort setup).ending = r.ending ∧ (r.checkAbort setup).session = r.session := by
    unfold Reader.checkAbort
    split <;> exact ⟨rfl, rfl⟩
  unfold afterDirective
  rw [queued_checkAbort, (kept _).1, (kept _).2]
  cases (d.execute setup r.place r.session).1 with
  | nothing | once | present => exact ⟨.inl rfl, rfl, rfl⟩
  | pass => exact ⟨.inr rfl, rfl, rfl⟩
  | enter header site =>
    simp only [act]
    rw [queued_enter, ending_enter, macros_enter]
    exact ⟨.inl rfl, rfl, rfl⟩

theorem macros_closeFile (frame : Frame) (outer : List Frame)
    (final : { token : Token // token.isEnd = true }) :
    (r.closeFile setup frame outer final).session.macros = r.session.macros := by
  unfold closeFile
  simp only []
  rw [macros_closeConditions]
  split
  · obtain ⟨status, same⟩ := exists_reportSpelling setup r final.1
    rw [same]
    exact r.session.macros_reportSpelling final.1
  · rfl

theorem IsFaithful.step (faithful : r.IsFaithful) (token : Token)
    (stepped : r.step setup = .give token next ∨ r.step setup = .goOn next) : next.IsFaithful := by
  have onLines := faithful.toOnLines.step token stepped
  have tokens {frame : Frame} {outer : List Frame} (isOpen : r.frames = frame :: outer) :
      ∀ token ∈ frame.lexer.item.1.tokens, token.calls = [] :=
    (faithful.bare frame (isOpen ▸ List.mem_cons_self)).calls_item
  have what := r.stepped setup
  obtain given | gone := stepped
  · rw [given] at what
    cases what with
    | waits waiting =>
      have queued := faithful.queued
      rw [waiting] at queued
      exact { faithful with toOnLines := onLines, queued := (List.forall_mem_cons.mp queued).2 }
    | finished isFinished => exact faithful.finish.1
    | counts idle isOpen running here live =>
      refine ⟨onLines, ?_, ?_, ?_⟩
      · rw [accept, queued_reportSpelling]
        exact faithful.queued
      · rw [accept, ending_reportSpelling]
        exact faithful.ending
      · rw [macros_of_give given]
        exact faithful.builtins
  · rw [gone] at what
    cases what with
    | @closes frame outer final rest idle isOpen running here =>
      refine ⟨onLines, ?_, ?_, ?_⟩
      · rw [queued_closeFile]
        exact faithful.queued
      · have last := tokens isOpen
        rw [here] at last
        have kept : (if r.session.conditions.isLive then r.reportSpelling setup final.1
            else r).ending = r.ending := by
          split
          · exact ending_reportSpelling _
          · rfl
        unfold closeFile
        simp only [kept]
        split
        · rintro _ ⟨⟩
          exact last _ List.mem_cons_self
        · exact faithful.ending
      · rw [macros_closeFile]
        exact faithful.builtins
    | @carriesOut frame outer d rest idle isOpen running here =>
      have line := tokens isOpen
      rw [here] at line
      obtain ⟨queued, ending, macros⟩ :=
        parts_afterDirective setup r { frame with lexer := rest } outer d
      refine ⟨onLines, ?_, ending ▸ faithful.ending, fun entry member => ?_⟩
      · obtain same | passed := queued
        · exact same ▸ faithful.queued
        · rw [passed, idle, List.nil_append]
          intro token member
          obtain ⟨written, inLine, rfl⟩ := List.mem_map.mp member
          exact ⟨rfl, line written inLine⟩
      · rw [macros] at member
        exact faithful.builtins entry
          ((d.changes_execute setup r.place r.session).builtins_subset member)
    | passesOver idle isOpen running here dead =>
      exact { faithful with toOnLines := onLines }

/-- A token that is given has not come out of macro calls: it is part of a passed directive, ends the
file, or is read from the innermost file. -/
theorem IsFaithful.give (faithful : r.IsFaithful) {token : Token}
    (stepped : r.step setup = .give token next) :
    token.calls = [] ∧ (token.verbatim = true ∨ token.isEnd = true ∨ r.Faces token) := by
  have what := r.stepped setup
  rw [stepped] at what
  cases what with
  | waits waiting =>
    obtain ⟨verbatim, calls⟩ := faithful.queued token (waiting ▸ List.mem_cons_self)
    exact ⟨calls, .inl verbatim⟩
  | finished isFinished => exact ⟨faithful.finish.2, .inr (.inl finish_isEnd.1)⟩
  | @counts frame outer token rest idle isOpen running here live =>
    have calls := (faithful.bare frame (isOpen ▸ List.mem_cons_self)).calls_item
    rw [here] at calls
    exact ⟨calls token List.mem_cons_self,
      .inr (.inr ⟨idle, running, live, frame, by rw [isOpen]; rfl, rest, here⟩)⟩

/-- A token that is pulled has not come out of macro calls either, and if it may call a macro, it is
read from a file at a reader that is passed. -/
theorem IsFaithful.pull (setup : Setup) (faithful : r.IsFaithful) :
    (r.pull setup).2.IsFaithful ∧ (r.pull setup).1.calls = []
      ∧ ((r.pull setup).1.verbatim = true ∨ (r.pull setup).1.isEnd = true
        ∨ ∃ passed, r.Passes setup passed ∧ passed.Faces (r.pull setup).1) := by
  fun_induction Reader.pull setup r with
  | case1 r token next stepped =>
    obtain ⟨calls, verbatim | isEnd | faces⟩ := faithful.give stepped
    · exact ⟨faithful.step token (.inl stepped), calls, .inl verbatim⟩
    · exact ⟨faithful.step token (.inl stepped), calls, .inr (.inl isEnd)⟩
    · exact ⟨faithful.step token (.inl stepped), calls, .inr (.inr ⟨r, .here r, faces⟩)⟩
  | case2 r next stepped ih =>
    obtain ⟨after, calls, verbatim | isEnd | ⟨passed, run, faces⟩⟩ :=
      ih (faithful.step default (.inr stepped))
    · exact ⟨after, calls, .inl verbatim⟩
    · exact ⟨after, calls, .inr (.inl isEnd)⟩
    · exact ⟨after, calls, .inr (.inr ⟨passed, .later stepped run, faces⟩)⟩

/-- The reader is faithful, and all its files are at the ends of lines. -/
structure IsReady (r : Reader) : Prop extends IsFaithful r where
  ends : ∀ frame ∈ r.frames, frame.lexer.EndsLine

theorem isReady_of_frames_eq_nil (closed : r.frames = []) (queued : r.queued = [])
    (ending : r.ending = none)
    (builtins : ∀ entry ∈ r.session.macros.builtins, entry.1 = entry.2.name) : r.IsReady where
  bare := closed ▸ List.forall_mem_nil _
  outer := closed ▸ List.forall_mem_nil _
  queued := queued ▸ List.forall_mem_nil _
  ending := by simp [ending]
  builtins := builtins
  ends := closed ▸ List.forall_mem_nil _

theorem IsReady.openFrame (setup : Setup) (ready : r.IsReady) (source : Source) (path shown canonical : Text)
    (searchIndex : Option Nat) (includeDepth : Nat) (isPreamble : Bool) :
    (r.openFrame setup source path shown canonical searchIndex includeDepth isPreamble).IsReady := by
  have starts := Lexer.endsLine_ofSource source ⟨path, shown, r.nextFileNumber⟩ setup.config.language
  exact { ready with
    bare := List.forall_mem_cons.mpr ⟨starts.toIsBare, ready.bare⟩
    outer := ready.ends
    ends := List.forall_mem_cons.mpr ⟨starts, ready.ends⟩ }

end Reader

/-! ## Calls -/

/-- The token never calls a macro, or it has been read from a file, or it is traced to a token that
has. -/
inductive Token.Comes (isRead : Token → Prop) (token : Token) : Prop where
  | stays (written : token.calls = []) (inert : token.verbatim = true ∨ token.isEnd = true)
  | read (written : token.calls = []) (read : isRead token)
  | traced {origin : Token} (read : isRead origin) (traced : token.IsTraced origin)

variable {isRead : Token → Prop} {site : Token} {m : Macro}

theorem Token.Comes.verbatim {token : Token} (comes : token.Comes isRead) :
    (Preprocessor.verbatim token).Comes isRead := by
  cases comes with
  | stays written => exact .stays written (.inl rfl)
  | read written => exact .stays written (.inl rfl)
  | traced read traced =>
    exact .traced read ⟨traced.written, traced.last, traced.file, traced.line, traced.column,
      traced.offset, traced.chain, traced.hidden⟩

namespace Head

variable {table : MacroTable}

/-- A call hides the name of the macro. -/
theorem name_mem_hidden {rest : List Token} {c : Call} (found : ofMacro m site rest = .call c) :
    m.name ∈ c.hidden := by
  unfold ofMacro at found
  split at found
  · cases found
  · cases found
    exact HideSet.mem_union.mpr (.inr List.mem_cons_self)
  · repeat' split at found
    all_goals
      cases found
      try exact HideSet.mem_union.mpr (.inr List.mem_cons_self)

end Head

namespace Expansion

variable {table : MacroTable}

/-- What replaces a call is traced to where its name comes from, whatever the token was before. -/
theorem exists_isTraced_replaced (comes : site.Comes isRead)
    (called : Head.called? table site = some m) {hidden : HideSet} (hides : m.name ∈ hidden)
    (token : Token) : ∃ origin, isRead origin ∧ (replaced site hidden token).IsTraced origin := by
  obtain ⟨named, expands⟩ := Head.name_of_called? called
  have nearest : ∀ call ∈ (replaced site hidden token).calls.head?,
      call.lexeme ∈ (replaced site hidden token).hideSet := by
    rw [named] at hides
    rintro call ⟨⟩
    exact HideSet.mem_union.mpr (.inr hides)
  cases comes with
  | stays written inert =>
    rw [expands, Head.isEnd_of_called? called] at inert
    simp at inert
  | read written read =>
    have calls : (replaced site hidden token).calls = [site.callSite] := by
      simp only [replaced, written]
    refine ⟨site, read, written, ?_, rfl, rfl, rfl, rfl, ?_, nearest⟩
    · rw [calls]
      rfl
    · rw [calls]
      exact List.forall_mem_singleton.mpr rfl
  | @traced origin read traced =>
    refine ⟨origin, read, traced.written, ?_, traced.file, traced.line, traced.column, traced.offset,
      List.forall_mem_cons.mpr ⟨?_, traced.chain⟩, nearest⟩
    · show (site.callSite :: site.calls).getLast? = some origin.callSite
      rw [List.getLast?_cons, traced.last]
      rfl
    · simp only [Token.callSite, traced.file, traced.line, traced.column, traced.offset]

theorem exists_isTraced_expandCall (comes : site.Comes isRead)
    (called : Head.called? table site = some m) {rest : List Token} {c : Call}
    (found : Head.ofMacro m site rest = .call c) (ctx : Context) (state : State) :
    ∀ token ∈ (expandCall ctx c state).1, token.Comes isRead := by
  have hides := Head.name_mem_hidden found
  obtain rfl := Preprocessor.site_of_ofMacro found.symm
  unfold expandCall
  simp only []
  generalize (Substitution.run _ _ _ _ _).result = body
  cases body with
  | nil => exact List.forall_mem_nil _
  | cons first body =>
    refine List.forall_mem_cons.mpr ⟨?_, fun token member => ?_⟩
    · obtain ⟨origin, read, traced⟩ := exists_isTraced_replaced comes called hides first
      exact .traced read ⟨traced.written, traced.last, traced.file, traced.line, traced.column,
        traced.offset, traced.chain, traced.hidden⟩
    · obtain ⟨unplaced, -, rfl⟩ := List.mem_map.mp member
      obtain ⟨origin, read, traced⟩ := exists_isTraced_replaced comes called hides unplaced
      exact .traced read traced

theorem comes_expandBuiltin (comes : site.Comes isRead) (called : Head.called? table site = some m)
    {kind : Builtin} (named : m.name = kind.name) (ctx : Context) (state : State) :
    (expandBuiltin ctx kind site state).1.Comes isRead := by
  have hides : m.name ∈ site.hideSet.union [kind.name] :=
    HideSet.mem_union.mpr (.inr (named ▸ List.mem_cons_self))
  obtain ⟨origin, read, traced⟩ := exists_isTraced_replaced comes called hides
    { kind := (builtinText ctx state.counter site kind).1
      lexeme := (builtinText ctx state.counter site kind).2 }
  exact .traced read ⟨traced.written, traced.last, traced.file, traced.line, traced.column,
    traced.offset, traced.chain, traced.hidden⟩

end Expansion

/-! ## Runs -/

namespace Preprocessor

variable {setup : Setup} {p q : Preprocessor} {r : Reader}

/-- All tokens of files that are read while `Q` holds count as read. -/
abbrev Covers (isRead : Token → Prop) (Q : Reader → Prop) : Prop :=
  ∀ passed, Q passed → ∀ token, passed.Faces token → isRead token

/-- Everything that is pending can be traced. -/
structure IsTracked (isRead : Token → Prop) (p : Preprocessor) : Prop where
  reader : p.reader.IsFaithful
  pending : ∀ token ∈ p.pending, token.Comes isRead

/-- A token that can be traced is given, and what is left can be traced as well. -/
structure Tracks (isRead : Token → Prop) (result : Token × Preprocessor) : Prop where
  token : result.1.Comes isRead
  after : result.2.IsTracked isRead

theorem comes_pull (faithful : r.IsFaithful) (reads : Covers isRead (r.Passes setup)) :
    (r.pull setup).1.Comes isRead ∧ (r.pull setup).2.IsFaithful := by
  obtain ⟨after, calls, verbatim | isEnd | ⟨passed, run, faces⟩⟩ := faithful.pull setup
  · exact ⟨.stays calls (.inl verbatim), after⟩
  · exact ⟨.stays calls (.inr isEnd), after⟩
  · exact ⟨.read calls (reads passed run _ faces), after⟩

theorem IsTracked.take (tracked : p.IsTracked isRead)
    (reads : Covers isRead (ExpandPasses setup p)) : Tracks isRead (p.take setup) := by
  unfold Preprocessor.take
  cases pending : p.pending with
  | cons token rest =>
    obtain ⟨first, later⟩ := List.forall_mem_cons.mp (pending ▸ tracked.pending)
    exact ⟨first, tracked.reader, later⟩
  | nil =>
    obtain ⟨comes, faithful⟩ := comes_pull tracked.reader
      fun passed run => reads passed (.taking pending run)
    exact ⟨comes, faithful, List.forall_mem_nil _⟩

theorem comes_gather {depth : Nat} (faithful : r.IsFaithful)
    (reads : Covers isRead (GatherPasses setup depth r)) :
    (∀ token ∈ (gather setup depth r).1, token.Comes isRead)
      ∧ (gather setup depth r).2.IsFaithful := by
  fun_induction gather setup depth r with
  | case1 depth r ends =>
    obtain ⟨comes, after⟩ := comes_pull faithful fun passed run => reads passed (.pulling run)
    exact ⟨List.forall_mem_singleton.mpr comes, after⟩
  | case2 depth r inner goesOn more ih =>
    obtain ⟨comes, after⟩ := comes_pull faithful fun passed run => reads passed (.pulling run)
    obtain ⟨later, last⟩ := ih after fun passed run => reads passed (.later goesOn run)
    exact ⟨List.forall_mem_cons.mpr ⟨comes, later⟩, last⟩

theorem comes_gatherFrom {opening : Token} {inner : List Token} (faithful : r.IsFaithful)
    (here : ∀ token ∈ opening :: inner, token.Comes isRead)
    (reads : ∀ depth, opening.isOpen = true → Arguments.depthAfter 0 inner = some depth →
      Covers isRead (GatherPasses setup depth r)) :
    (∀ token ∈ (gatherFrom setup opening inner r).1, token.Comes isRead)
      ∧ (gatherFrom setup opening inner r).2.IsFaithful := by
  unfold gatherFrom
  split
  · exact ⟨here, faithful⟩
  · rename_i depth unclosed
    split at unclosed
    · rename_i isOpen
      obtain ⟨later, after⟩ := comes_gather faithful (reads depth isOpen unclosed)
      obtain ⟨first, inside⟩ := List.forall_mem_cons.mp here
      exact ⟨List.forall_mem_cons.mpr ⟨first, List.forall_mem_append.mpr ⟨inside, later⟩⟩, after⟩
    · cases unclosed

theorem IsTracked.gatherCall (tracked : p.IsTracked isRead)
    (reads : Covers isRead (CallPasses setup p.pending p.reader)) :
    (∀ token ∈ (gatherCall setup p.reader p.pending).1, token.Comes isRead)
      ∧ (gatherCall setup p.reader p.pending).2.IsFaithful := by
  have here := tracked.pending
  cases pending : p.pending with
  | cons opening inner =>
    rw [pending] at reads here
    exact comes_gatherFrom tracked.reader here fun depth isOpen unclosed passed run =>
      reads passed (.pending isOpen unclosed run)
  | nil =>
    rw [pending] at reads
    obtain ⟨comes, after⟩ := comes_pull tracked.reader fun passed run => reads passed (.pulling run)
    refine comes_gatherFrom after (List.forall_mem_singleton.mpr comes) ?_
    rintro depth isOpen ⟨⟩ passed run
    exact reads passed (.pulled isOpen run)

/-- A head is read from tokens that can be traced. -/
theorem IsTracked.headOfMacro (tracked : p.IsTracked isRead) (m : Macro) (site : Token)
    (reads : m.isFunctionLike = true → Covers isRead (CallPasses setup p.pending p.reader)) :
    ∃ gathered, (headOfMacro setup m site p).1 = Head.ofMacro m site gathered
      ∧ IsTracked isRead ⟨(headOfMacro setup m site p).2, gathered⟩ := by
  unfold Preprocessor.headOfMacro
  split
  · rename_i isCall
    obtain ⟨comes, faithful⟩ := tracked.gatherCall (reads isCall)
    exact ⟨_, rfl, faithful, comes⟩
  · exact ⟨_, rfl, tracked⟩

/-- Other reports and other definitions set aside leave everything traced. -/
theorem IsTracked.of_same (tracked : p.IsTracked isRead) (frames : r.frames = p.reader.frames)
    (queued : r.queued = p.reader.queued) (ending : r.ending = p.reader.ending)
    (builtins : r.session.macros.builtins ⊆ p.reader.session.macros.builtins) :
    IsTracked isRead { p with reader := r } :=
  ⟨tracked.reader.of_same frames queued ending builtins, tracked.pending⟩

/-- An expanded token can be traced. -/
theorem IsTracked.expandNext (tracked : p.IsTracked isRead)
    (reads : Covers isRead (ExpandPasses setup p)) : Tracks isRead (p.expandNext setup) := by
  fun_induction Preprocessor.expandNext setup p with
  | case1 p site q taken notCalled => exact taken ▸ tracked.take reads
  | case2 p site q taken m called token rest r found =>
    have took := taken ▸ tracked.take reads
    obtain ⟨gathered, head, after⟩ := took.after.headOfMacro m site fun isCall passed run =>
      reads passed (.gathering taken called isCall run)
    rw [found] at head after
    obtain rfl := Head.rest_of_ofMacro.1 _ _ head.symm
    exact ⟨took.token, after⟩
  | case3 p site q taken m called kind token rest r found done =>
    have took := taken ▸ tracked.take reads
    obtain ⟨gathered, head, after⟩ := took.after.headOfMacro m site fun isCall passed run =>
      reads passed (.gathering taken called isCall run)
    rw [found] at head after
    obtain rfl := Head.rest_of_ofMacro.2.1 _ _ _ head.symm
    have named : m.name = kind.name := took.after.reader.builtins (m.name, kind)
      (MacroTable.mem_builtins.mpr
        (.inl ⟨m, Head.mem_of_called? called, rfl, Head.builtin?_of_ofMacro head.symm⟩))
    exact ⟨Expansion.comes_expandBuiltin took.token called named _ _,
      after.of_same rfl rfl rfl (List.Subset.refl _)⟩
  | case4 p site q taken m called code token rest r found =>
    have took := taken ▸ tracked.take reads
    obtain ⟨gathered, head, after⟩ := took.after.headOfMacro m site fun isCall passed run =>
      reads passed (.gathering taken called isCall run)
    rw [found] at head after
    obtain rfl := Head.rest_of_ofMacro.2.2 _ _ _ head.symm
    exact ⟨took.token, after.of_same rfl rfl rfl (List.Subset.refl _)⟩
  | case5 p site q taken m called c r found ih =>
    have took := taken ▸ tracked.take reads
    obtain ⟨gathered, head, after⟩ := took.after.headOfMacro m site fun isCall passed run =>
      reads passed (.gathering taken called isCall run)
    rw [found] at head after
    have replaced := Expansion.exists_isTraced_expandCall took.token called head.symm
      (context setup r) r.session.expansion
    have rest := (Head.rest_suffix_of_ofMacro head.symm).subset
    refine ih ⟨after.reader.of_same rfl rfl rfl (List.Subset.refl _), ?_⟩
      fun passed run => reads passed (.again taken called found run)
    exact List.forall_mem_append.mpr ⟨replaced, fun token member => after.pending token (rest member)⟩

/-- The operand of a pragma operator can be traced, and what is left. -/
theorem IsTracked.readOperand (tracked : p.IsTracked isRead) (keyword : Token)
    (reads : Covers isRead (OperandPasses setup p)) :
    (∀ operand ∈ (p.readOperand setup keyword).1,
        ∀ token ∈ [operand.opening, operand.literal, operand.close], token.Comes isRead)
      ∧ (p.readOperand setup keyword).2.IsTracked isRead := by
  have opening := tracked.expandNext fun passed run => reads passed (.opening run)
  cases isOpen : (p.expandNext setup).1.isOpen with
  | false =>
    rw [readOperand_of_not_isOpen keyword isOpen]
    exact ⟨by simp, opening.after.reader, List.forall_mem_cons.mpr ⟨opening.token, opening.after.pending⟩⟩
  | true =>
    have literal := opening.after.expandNext fun passed run => reads passed (.literal isOpen run)
    have close := literal.after.expandNext fun passed run => reads passed (.close isOpen run)
    have tokens : ∀ token ∈ [(p.expandNext setup).1, ((p.expandNext setup).2.expandNext setup).1,
        (((p.expandNext setup).2.expandNext setup).2.expandNext setup).1], token.Comes isRead :=
      List.forall_mem_cons.mpr ⟨opening.token, List.forall_mem_cons.mpr
        ⟨literal.token, List.forall_mem_singleton.mpr close.token⟩⟩
    rw [readOperand_of_isOpen keyword isOpen, closeOperand]
    split
    · exact ⟨by rintro operand ⟨⟩; exact tokens, close.after⟩
    · exact ⟨by simp, close.after.reader.of_same rfl rfl rfl (List.Subset.refl _),
        List.forall_mem_append.mpr ⟨tokens, close.after.pending⟩⟩

theorem IsTracked.applyPragma (tracked : p.IsTracked isRead) (keyword literal : Token) :
    (p.applyPragma setup keyword literal).2.IsTracked isRead := by
  have executed (args : List Token) : (p.executePragma setup keyword args).2.IsTracked isRead := by
    unfold Preprocessor.executePragma
    simp only []
    split
    · exact tracked.of_same rfl rfl rfl (Directive.changes_pragma _ _ _ _ args).builtins_subset
    · exact tracked
  unfold Preprocessor.applyPragma
  split
  · exact tracked.of_same rfl rfl rfl (List.Subset.refl _)
  · rename_i args _
    have after := executed args
    split
    all_goals
      rename_i done
      rw [done] at after
    · rw [markOnce_eq]
      exact after.of_same rfl rfl rfl (List.Subset.refl _)
    · exact after
    · exact after

theorem IsTracked.checkAbort (tracked : p.IsTracked isRead) :
    (p.checkAbort setup).IsTracked isRead :=
  ⟨tracked.reader.checkAbort, tracked.pending⟩

theorem IsTracked.finish (tracked : p.IsTracked isRead) : Tracks isRead p.finish where
  token := .stays tracked.reader.finish.2 (.inr p.finish_facts.1)
  after := ⟨tracked.reader.finish.1, tracked.pending⟩

theorem IsTracked.give (tracked : p.IsTracked isRead) {token : Token} (comes : token.Comes isRead) :
    Tracks isRead (give token p) := by
  unfold Preprocessor.give
  split
  · exact tracked.finish
  · exact ⟨comes, tracked⟩

/-- The next token can be traced. -/
theorem IsTracked.next (tracked : p.IsTracked isRead) (reads : Covers isRead (NextPasses setup p)) :
    Tracks isRead (p.next setup) := by
  fun_induction Preprocessor.next setup p with
  | case1 p aborted => exact tracked.finish
  | case2 p running token q starts aborted =>
    have expanded := tracked.expandNext fun passed run =>
      reads passed (.expanding (Bool.eq_false_iff.mpr running) run)
    exact expanded.after.checkAbort.finish
  | case3 p running token q starts goesOn q' read =>
    have running := Bool.eq_false_iff.mpr running
    have expanded := tracked.expandNext fun passed run => reads passed (.expanding running run)
    have asked : q.IsTracked isRead := expanded.after.checkAbort
    obtain ⟨-, after⟩ := asked.readOperand token fun passed run =>
      reads passed (.operand running rfl starts (Bool.eq_false_iff.mpr goesOn) run)
    rw [read] at after
    exact ⟨expanded.token, after⟩
  | case4 p running token q starts goesOn operand q' read done applied =>
    have running := Bool.eq_false_iff.mpr running
    have expanded := tracked.expandNext fun passed run => reads passed (.expanding running run)
    have asked : q.IsTracked isRead := expanded.after.checkAbort
    obtain ⟨tokens, after⟩ := asked.readOperand token fun passed run =>
      reads passed (.operand running rfl starts (Bool.eq_false_iff.mpr goesOn) run)
    rw [read] at tokens after
    have carried : (q'.applyPragma setup token operand.literal).2.IsTracked isRead :=
      after.applyPragma token operand.literal
    rw [applied] at carried
    have kept : (done.checkAbort setup).IsTracked isRead := carried.checkAbort
    have passed : ((done.checkAbort setup).passOperand operand).IsTracked isRead :=
      ⟨kept.reader, List.forall_mem_append.mpr
        ⟨List.forall_mem_map.mpr fun token member => (tokens operand rfl token member).verbatim,
          kept.pending⟩⟩
    exact passed.give expanded.token.verbatim
  | case5 p running token q starts goesOn operand q' read done applied ih =>
    have running := Bool.eq_false_iff.mpr running
    have goesOn := Bool.eq_false_iff.mpr goesOn
    have expanded := tracked.expandNext fun passed run => reads passed (.expanding running run)
    have asked : q.IsTracked isRead := expanded.after.checkAbort
    obtain ⟨-, after⟩ := asked.readOperand token fun passed run =>
      reads passed (.operand running rfl starts goesOn run)
    rw [read] at after
    have carried : (q'.applyPragma setup token operand.literal).2.IsTracked isRead :=
      after.applyPragma token operand.literal
    rw [applied] at carried
    exact ih carried fun passed run =>
      reads passed (.again running rfl starts goesOn read applied run)
  | case6 p running token q plain =>
    have expanded := tracked.expandNext fun passed run =>
      reads passed (.expanding (Bool.eq_false_iff.mpr running) run)
    exact expanded.after.checkAbort.give expanded.token

/-- All tokens of a run can be traced. -/
theorem IsTracked.tokensWithin (tracked : p.IsTracked isRead) (reads : Covers isRead (Passes setup p))
    (n : Nat) : ∀ token ∈ (p.tokensWithin setup n).1, token.Comes isRead := by
  induction n generalizing p with
  | zero => exact List.forall_mem_singleton.mpr tracked.finish.token
  | succ n ih =>
    have given := tracked.next fun passed run => reads passed (.next run)
    unfold Preprocessor.tokensWithin
    simp only []
    split
    · exact List.forall_mem_singleton.mpr given.token
    · rename_i goesOn
      exact List.forall_mem_cons.mpr ⟨given.token,
        ih given.after fun passed run => reads passed (.later (Bool.eq_false_iff.mpr goesOn) run)⟩

/-- A run starts with a faithful reader and with nothing pending. -/
theorem isTracked_openMain (created : create setup = .ok p) (failures : List (Text × SourceError))
    {source : Except SourceError Source} {name : Text}
    (opening : (p.afterFailures failures).openMain setup source name = .ok q) : q.IsTracked isRead := by
  obtain ⟨pending, frames, queued, ending, macros⟩ :
      (p.afterFailures failures).pending = [] ∧ (p.afterFailures failures).reader.frames = []
        ∧ (p.afterFailures failures).reader.queued = [] ∧ (p.afterFailures failures).reader.ending = none
        ∧ (p.afterFailures failures).reader.session.macros = MacroTable.addBuiltins {} := by
    obtain ⟨cache, rfl⟩ := Reader.exists_create created
    obtain ⟨expansion, failed⟩ := exists_afterFailures _ failures
    rw [failed]
    exact ⟨rfl, rfl, rfl, rfl, rfl⟩
  generalize p.afterFailures failures = p' at pending frames queued ending macros opening
  have builtins : ∀ entry ∈ (MacroTable.addBuiltins {}).builtins, entry.1 = entry.2.name := by
    decide
  unfold openMain at opening
  split at opening
  · cases opening
  · split at opening
    · cases opening
    · rename_i source _
      cases opening
      have closed : Reader.IsReady { p'.reader with opened := true, baseFile := name } :=
        Reader.isReady_of_frames_eq_nil frames queued ending (macros ▸ builtins)
      have opened := closed.openFrame setup source name name (setup.files.canonical name) none 0 false
      refine ⟨?_, pending ▸ List.forall_mem_nil _⟩
      unfold openPreamble
      simp only []
      split
      · exact opened.toIsFaithful
      · exact (opened.openFrame setup _ _ _ _ _ _ _).toIsFaithful

/-- A token of a run that has come out of macro calls stands where the last name in the chain of its
calls was read: from a file at a reader that the run passes, and not out of a call. The name of the
nearest call is hidden in the token. -/
theorem isTraced_tokensWithin (created : create setup = .ok p) (failures : List (Text × SourceError))
    {source : Except SourceError Source} {name : Text}
    (opening : (p.afterFailures failures).openMain setup source name = .ok q) {n : Nat} {token : Token}
    (member : token ∈ (q.tokensWithin setup n).1) (expanded : token.calls ≠ []) :
    ∃ origin passed, q.Passes setup passed ∧ passed.Faces origin ∧ token.IsTraced origin := by
  have tracked : q.IsTracked fun token => ∃ passed, q.Passes setup passed ∧ passed.Faces token :=
    isTracked_openMain created failures opening
  have comes := tracked.tokensWithin (fun passed run token faces => ⟨passed, run, faces⟩) n token member
  cases comes with
  | stays written => exact absurd written expanded
  | read written => exact absurd written expanded
  | @traced origin read traced =>
    obtain ⟨passed, run, faces⟩ := read
    exact ⟨origin, passed, run, faces, traced⟩

/-! A builtin macro, called in the replacement list of a macro that another one calls. -/

/-- The main file. -/
def nestedText : Text :=
  "#define L __LINE__\n#define N(x) L p##x\n#define M(y) [N(a##y)]\nM(q)\n".toList

/-- The run that has opened the main file. -/
def nestedRun : Preprocessor :=
  { Reader.freshRun with
    reader := mainReader passingSetup Reader.freshRun (.ofDecoded false nestedText) ['m'] }

/-- The number of the line has come out of four calls. -/
theorem isTraced_tokensWithin_nested :
    ∃ token ∈ (nestedRun.tokensWithin passingSetup 60).1, token.calls.length = 4
      ∧ ∃ origin passed, nestedRun.Passes passingSetup passed ∧ passed.Faces origin
        ∧ token.IsTraced origin := by
  have created : create passingSetup = .ok Reader.freshRun := rfl
  have opening : (Reader.freshRun.afterFailures []).openMain passingSetup
      (.ok (.ofDecoded false nestedText)) ['m'] = .ok nestedRun := rfl
  have played : ((nestedRun.play passingSetup (fun _ => true) (fun _ => true) 60).map
      fun done => done.1.any (·.calls.length = 4)) = some true := by decide +kernel
  obtain ⟨done, played, deep⟩ := Option.map_eq_some_iff.mp played
  have same : nestedRun.tokensWithin passingSetup 60 = done :=
    (tokensWithin_of_play rfl played).1 60 (Nat.le_refl _)
  obtain ⟨token, member, calls⟩ := List.any_eq_true.mp deep
  have calls : token.calls.length = 4 := of_decide_eq_true calls
  rw [← same] at member
  exact ⟨token, member, calls, isTraced_tokensWithin created [] opening member fun none => by
    rw [none] at calls
    cases calls⟩

end Preprocessor

end CPreprocessor
