/-
# Expansion makes progress

What is left in a run is what its reader has to read, and then the pending tokens,
counted by levels as in the expansion of a list. Replacing a call leaves less
(`less_of_replaceCall`): either arguments had to be pulled, or the call stood in
the pending tokens and what replaces it is on lower levels.
-/
import CPreprocessor.Macro.KnownNames
import CPreprocessor.Preprocessor

namespace CPreprocessor.Preprocessor

/-- The pending tokens, counted by levels. -/
def pendingLevels (p : Preprocessor) : Levels :=
  Exposure.levels p.reader.session.macros.knownNames p.pending

/-- There is less to read, or the same and less pending. -/
def Less (setup : Setup) (a b : Preprocessor) : Prop :=
  Reader.Less setup a.reader b.reader
    ∨ (a.reader.amount setup = b.reader.amount setup
      ∧ Levels.Below a.pendingLevels b.pendingLevels)

/-- There is less left, or the same to read and not more pending. -/
def NotMore (setup : Setup) (a b : Preprocessor) : Prop :=
  Less setup a b
    ∨ (a.reader.amount setup = b.reader.amount setup
      ∧ Levels.AtMost a.pendingLevels b.pendingLevels)

variable {setup : Setup}

/-- What is left in a run. -/
def amount (setup : Setup) (p : Preprocessor) : (Levels × Nat) × Levels :=
  (p.reader.amount setup, p.pendingLevels)

/-- Less is left in the well-founded order that recursion uses. -/
theorem lex_of_less {a b : Preprocessor} (less : Less setup a b) :
    Prod.Lex (Prod.Lex Levels.Below (· < ·)) Levels.Below (amount setup a) (amount setup b) := by
  rcases less with less | ⟨same, less⟩
  · exact Prod.Lex.left _ _ less
  · unfold amount
    rw [same]
    exact Prod.Lex.right _ less

theorem readerLess_of_eq_left {a b c : Reader} (same : a.amount setup = b.amount setup)
    (less : Reader.Less setup b c) : Reader.Less setup a c := by
  unfold Reader.Less at *
  rwa [same]

theorem readerLess_of_eq_right {a b c : Reader} (less : Reader.Less setup a b)
    (same : b.amount setup = c.amount setup) : Reader.Less setup a c := by
  unfold Reader.Less at *
  rwa [← same]

variable {a b c : Preprocessor}

theorem Less.trans (ab : Less setup a b) (bc : Less setup b c) : Less setup a c := by
  rcases ab with ab | ⟨same, ab⟩
  · rcases bc with bc | ⟨same', _⟩
    · exact .inl (ab.trans bc)
    · exact .inl (readerLess_of_eq_right ab same')
  · rcases bc with bc | ⟨same', bc⟩
    · exact .inl (readerLess_of_eq_left same bc)
    · exact .inr ⟨same.trans same', ab.trans bc⟩

theorem Less.trans_notMore (ab : Less setup a b) (bc : NotMore setup b c) : Less setup a c := by
  rcases bc with bc | ⟨same', bc⟩
  · exact ab.trans bc
  · rcases ab with ab | ⟨same, ab⟩
    · exact .inl (readerLess_of_eq_right ab same')
    · exact .inr ⟨same.trans same', ab.trans_atMost bc⟩

theorem NotMore.trans_less (ab : NotMore setup a b) (bc : Less setup b c) : Less setup a c := by
  rcases ab with ab | ⟨same, ab⟩
  · exact ab.trans bc
  · rcases bc with bc | ⟨same', bc⟩
    · exact .inl (readerLess_of_eq_left same bc)
    · exact .inr ⟨same.trans same', ab.trans_below bc⟩

theorem NotMore.trans (ab : NotMore setup a b) (bc : NotMore setup b c) : NotMore setup a c := by
  rcases bc with bc | ⟨same', bc⟩
  · exact .inl (ab.trans_less bc)
  · rcases ab with ab | ⟨same, ab⟩
    · exact .inl (ab.trans_notMore (.inr ⟨same', bc⟩))
    · exact .inr ⟨same.trans same', ab.trans bc⟩

theorem NotMore.refl (a : Preprocessor) : NotMore setup a a :=
  .inr ⟨rfl, Levels.AtMost.refl _⟩

/-- A token is taken from the pending ones or pulled; when nothing is left, the end of a file is
pulled. -/
theorem take_cases (setup : Setup) (p : Preprocessor) :
    (∃ pending, p.pending = (p.take setup).1 :: pending ∧ (p.take setup).2 = ⟨p.reader, pending⟩)
      ∨ Reader.Less setup (p.take setup).2.reader p.reader
      ∨ ((p.take setup).1.isEnd = true ∧ Reader.SameState (p.take setup).2.reader p.reader
        ∧ (p.take setup).2.pending = p.pending) := by
  unfold take
  split
  · rename_i token pending waiting
    exact .inl ⟨pending, waiting, rfl⟩
  · rename_i empty
    rcases Reader.pull_progress setup p.reader with less | ⟨isEnd, same⟩
    · exact .inr (.inl less)
    · exact .inr (.inr ⟨isEnd, same, rfl⟩)

/-- When a token that does not end a file is taken, less is left. -/
theorem less_take {p : Preprocessor} (more : (p.take setup).1.isEnd = false) :
    Less setup (p.take setup).2 p := by
  rcases take_cases setup p with ⟨pending, waiting, after⟩ | less | ⟨isEnd, _⟩
  · rw [after]
    refine .inr ⟨rfl, ?_⟩
    unfold pendingLevels
    rw [waiting]
    exact Exposure.fewer_tail more (List.Sublist.refl _)
  · exact .inl less
  · rw [isEnd] at more
    cases more

theorem notMore_take (setup : Setup) (p : Preprocessor) : NotMore setup (p.take setup).2 p := by
  rcases take_cases setup p with ⟨pending, waiting, after⟩ | less | ⟨_, same, pending⟩
  · rw [after]
    refine .inr ⟨rfl, ?_⟩
    unfold pendingLevels
    rw [waiting]
    exact Exposure.atMost_of_sublist (List.sublist_cons_self _ _)
  · exact .inl (.inl less)
  · refine .inr ⟨Reader.amount_of_sameState same, ?_⟩
    unfold pendingLevels
    rw [same.2.2, pending]
    exact Levels.AtMost.refl _

/-- Gathering leaves less to read, or it has added ends of files only. -/
def Gathered (setup : Setup) (before : List Token) (r : Reader) (after : List Token × Reader) : Prop :=
  Reader.Less setup after.2 r
    ∨ (Reader.SameState after.2 r
      ∧ ∃ ends, after.1 = before ++ ends ∧ ∀ token ∈ ends, token.isEnd = true)

theorem gathered_gather (setup : Setup) (depth : Nat) (r : Reader) :
    Gathered setup [] r (gather setup depth r) := by
  fun_induction gather setup depth r with
  | case1 depth r ended =>
    rcases Reader.pull_progress setup r with less | ⟨isEnd, same⟩
    · exact .inl less
    · exact .inr ⟨same, _, rfl, by simpa using isEnd⟩
  | case2 depth r inner goesOn more ih =>
    rcases Reader.pull_progress setup r with less | ⟨isEnd, _⟩
    · refine .inl ?_
      rcases ih with further | ⟨same, _⟩
      · exact further.trans less
      · exact readerLess_of_eq_left (Reader.amount_of_sameState same) less
    · simp [Arguments.depthAfter, isEnd] at goesOn

theorem gathered_gatherFrom (setup : Setup) (opening : Token) (inner : List Token) (r : Reader) :
    Gathered setup (opening :: inner) r (gatherFrom setup opening inner r) := by
  unfold gatherFrom
  split
  · exact .inr ⟨⟨rfl, rfl, rfl⟩, [], by simp, by simp⟩
  · rename_i depth _
    rcases gathered_gather setup depth r with less | ⟨same, ends, added, areEnds⟩
    · exact .inl less
    · refine .inr ⟨same, ends, ?_, areEnds⟩
      simp only [added, List.nil_append, List.cons_append]

theorem gathered_gatherCall (r : Reader) (rest : List Token) :
    Gathered setup rest r (gatherCall setup r rest) := by
  match rest with
  | opening :: inner => exact gathered_gatherFrom setup opening inner r
  | [] =>
    rcases Reader.pull_progress setup r with less | ⟨isEnd, same⟩
    · refine .inl ?_
      rcases gathered_gatherFrom setup (r.pull setup).1 [] (r.pull setup).2 with
        further | ⟨same, _⟩
      · exact further.trans less
      · exact readerLess_of_eq_left (Reader.amount_of_sameState same) less
    · have closed : (r.pull setup).1.isOpen = false := by
        have : (r.pull setup).1.kind = .endOfFile := by simpa [Token.isEnd] using isEnd
        simp [Token.isOpen, Token.isPunctuator, this]
      refine .inr ?_
      simp only [gatherCall, gatherFrom, closed, Bool.false_eq_true, if_false]
      exact ⟨same, _, rfl, by simpa using isEnd⟩

/-- The tokens that a head was read from, of which at most ends of files are not pending. -/
theorem head_of_headOfMacro {m : Macro} {site : Token} {p : Preprocessor} {head : Head} {r : Reader}
    (found : headOfMacro setup m site p = (head, r)) :
    ∃ rest, head = Head.ofMacro m site rest ∧ Gathered setup p.pending p.reader (rest, r) := by
  unfold headOfMacro at found
  split at found
  · cases found
    exact ⟨_, rfl, gathered_gatherCall p.reader p.pending⟩
  · cases found
    exact ⟨_, rfl, .inr ⟨⟨rfl, rfl, rfl⟩, [], by simp, by simp⟩⟩

/-- Gathered tokens count for no more than what was pending. -/
theorem notMore_of_gathered {p : Preprocessor} {rest : List Token} {r : Reader}
    (gathered : Gathered setup p.pending p.reader (rest, r)) (expansion : Expansion.State) :
    NotMore setup ⟨withExpansion r expansion, rest⟩ p := by
  rcases gathered with less | ⟨same, ends, added, areEnds⟩
  · exact .inl (.inl less)
  · have amounts : r.amount setup = p.reader.amount setup := Reader.amount_of_sameState same
    have names : r.session.macros = p.reader.session.macros := congrArg Session.macros same.2.2
    refine .inr ⟨amounts, ?_⟩
    show Levels.AtMost (Exposure.levels r.session.macros.knownNames rest) p.pendingLevels
    simp only at added
    rw [names, added, Exposure.levels_append_end areEnds]
    exact Levels.AtMost.refl _

/-- Replacing a call leaves less. -/
theorem less_of_replaceCall {p q : Preprocessor} {site : Token} {m : Macro} {c : Call} {r : Reader}
    (taken : p.take setup = (site, q)) (called : Head.called? q.reader.session.macros site = some m)
    (found : headOfMacro setup m site q = (.call c, r)) :
    Less setup (replaceCall setup r c) p := by
  have facts := Head.called?_eq_some called
  have more : site.isEnd = false := Head.isEnd_of_called? called
  obtain ⟨rest, head, gathered⟩ := head_of_headOfMacro found
  have cases := take_cases setup p
  have qLess := @less_take setup p
  rw [taken] at cases qLess
  rcases gathered with less | ⟨same, ends, added, areEnds⟩
  · have : Less setup (replaceCall setup r c) q := .inl less
    exact this.trans (qLess more)
  · have amounts : r.amount setup = q.reader.amount setup := Reader.amount_of_sameState same
    rcases cases with ⟨pending, waiting, after⟩ | less | ⟨isEnd, _⟩
    · simp only at after waiting added
      subst after
      have names : r.session.macros = p.reader.session.macros := congrArg Session.macros same.2.2
      refine .inr ⟨amounts, ?_⟩
      have known : m.name ∈ p.reader.session.macros.knownNames :=
        MacroTable.mem_knownNames.mpr (.inl facts.1)
      have below : Levels.Below
          (Exposure.levels p.reader.session.macros.knownNames (replaceCall setup r c).pending)
          (Exposure.levels p.reader.session.macros.knownNames (site :: rest)) :=
        Exposure.fewer_of_ofMacro head.symm more known facts.2
          fun _ member _ inHidden => Expansion.hidden_of_mem_replacement member inHidden
      rw [added, ← List.cons_append, Exposure.levels_append_end areEnds] at below
      show Levels.Below (Exposure.levels r.session.macros.knownNames _) p.pendingLevels
      unfold pendingLevels
      rw [names, waiting]
      exact below
    · exact .inl (readerLess_of_eq_left (a := withExpansion r _) amounts less)
    · rw [isEnd] at more
      cases more

end CPreprocessor.Preprocessor
