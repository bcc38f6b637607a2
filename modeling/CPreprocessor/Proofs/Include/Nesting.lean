/-
# Files are included within bounds, and reading ends

A header is opened one level below the file that includes it, and only where the
configuration allows that level, so the levels of the open files are what `NestsWithin`
says. Opening a file that is open already is ruled out by its canonical path, as long as
the path that a header is opened with leads to the file that its canonical path names;
a file that is open twice shows that some include of the run has broken this. Every pull
leaves less to read until nothing is left, so all runs of pulls end
(`exists_isFinished`). `open_files_bounded` has all of this for every reader that a run
goes through.
-/
import CPreprocessor.Proofs.Run.Moves
import Mathlib.Data.List.Chain

namespace CPreprocessor

namespace Reader

variable {setup : Setup} {r next : Reader}

/-! ## The levels of the open files -/

/-- Each open file is as deep as the one that it was opened from or one level deeper, and none is
deeper than `maxDepth`. -/
structure NestsWithin (maxDepth : Nat) (frames : List Frame) : Prop where
  climbs : frames.IsChain fun inner outer =>
    outer.includeDepth ≤ inner.includeDepth ∧ inner.includeDepth ≤ outer.includeDepth + 1
  bounded : ∀ frame ∈ frames, frame.includeDepth ≤ maxDepth

namespace NestsWithin

variable {maxDepth : Nat} {frame frame' new : Frame} {outer : List Frame}

/-- Reading on in a file leaves it on its level. -/
theorem goesOn (nests : NestsWithin maxDepth (frame :: outer)) (goes : frame.GoesOn frame') :
    NestsWithin maxDepth (frame' :: outer) where
  climbs := by
    have climbs := nests.climbs
    rw [List.isChain_cons] at climbs ⊢
    rwa [goes.includeDepth]
  bounded := by
    have bounded := nests.bounded
    rw [List.forall_mem_cons] at bounded ⊢
    rwa [goes.includeDepth]

/-- A header is one level deeper. -/
theorem enters (nests : NestsWithin maxDepth (frame :: outer))
    (deeper : new.includeDepth = frame.includeDepth + 1) (allowed : new.includeDepth ≤ maxDepth) :
    NestsWithin maxDepth (new :: frame :: outer) where
  climbs := List.isChain_cons_cons.mpr ⟨by omega, nests.climbs⟩
  bounded := List.forall_mem_cons.mpr ⟨allowed, nests.bounded⟩

theorem closes (nests : NestsWithin maxDepth (frame :: outer)) : NestsWithin maxDepth outer where
  climbs := (List.isChain_cons.mp nests.climbs).2
  bounded := (List.forall_mem_cons.mp nests.bounded).2

end NestsWithin

theorem Reachable.nestsWithin (reachable : r.Reachable setup) :
    NestsWithin setup.config.maxIncludeDepth r.frames := by
  induction reachable with
  | opened created opening =>
    obtain ⟨main, -, level, alone | ⟨preamble, -, level', -, both⟩⟩ :=
      frames_openMain created opening
    · rw [alone]
      exact ⟨.singleton _, by simp [level]⟩
    · rw [both]
      exact ⟨by simp [level, level'], by simp [level, level']⟩
  | step reachable stepped ih =>
    cases reachable.consistent.moves stepped with
    | stays same => rwa [same]
    | goesOn isOpen same goes =>
      rw [isOpen] at ih
      rw [same]
      exact ih.goesOn goes
    | enters isOpen same goes asks fresh starts canonical deeper allowed =>
      rw [isOpen] at ih
      rw [same]
      exact (ih.goesOn goes).enters (deeper.trans (by rw [goes.includeDepth])) allowed
    | closes isOpen same =>
      rw [isOpen] at ih
      rw [same]
      exact ih.closes
  | beside reachable beside ih => rwa [beside.frames]

/-! ## No file is open twice -/

/-- No file is open twice, the preamble aside. -/
def OpensOnce (frames : List Frame) : Prop :=
  frames.Pairwise fun inner outer =>
    inner.isPreamble = false → outer.isPreamble = false → inner.canonical ≠ outer.canonical

/-- An include has found a header whose path leads to another file than its canonical path. -/
def Misplaces (setup : Setup) (r : Reader) : Prop :=
  ∃ frame header, r.AsksFor setup frame header
    ∧ setup.files.canonical header.path ≠ header.canonical

variable {frame frame' new : Frame} {outer : List Frame}

theorem OpensOnce.goesOn (once : OpensOnce (frame :: outer)) (goes : frame.GoesOn frame') :
    OpensOnce (frame' :: outer) := by
  have ⟨first, others⟩ := List.pairwise_cons.mp once
  refine List.pairwise_cons.mpr ⟨fun file member => ?_, others⟩
  rw [goes.isPreamble, goes.canonical]
  exact first file member

/-- A step opens no file that is open already, unless it opens a header that is not the file that it
was found as. -/
theorem Moves.opensOnce (moves : r.Moves setup next) (once : OpensOnce r.frames) :
    OpensOnce next.frames ∨ r.Misplaces setup := by
  cases moves with
  | stays same => exact .inl (same ▸ once)
  | goesOn isOpen same goes =>
    rw [isOpen] at once
    rw [same]
    exact .inl (once.goesOn goes)
  | closes isOpen same =>
    rw [isOpen] at once
    rw [same]
    exact .inl (List.pairwise_cons.mp once).2
  | @enters frame frame' new outer header isOpen same goes asks fresh starts canonical =>
    by_cases found : setup.files.canonical header.path = header.canonical
    · refine .inl ?_
      rw [isOpen] at once fresh
      rw [same]
      refine List.pairwise_cons.mpr ⟨fun file member _ _ => ?_, once.goesOn goes⟩
      rw [canonical, found]
      obtain rfl | member := List.mem_cons.mp member
      · rw [goes.canonical]
        exact (fresh frame List.mem_cons_self).symm
      · exact (fresh file (List.mem_cons_of_mem _ member)).symm
    · exact .inr ⟨frame, header, asks, found⟩

/-- If a file is open twice, an include before has found a header whose path leads elsewhere. -/
theorem Reachable.opensOnce (reachable : r.Reachable setup) :
    OpensOnce r.frames
      ∨ ∃ before : Reader, before.Reachable setup ∧ before.Misplaces setup ∧ before.Leads setup r := by
  induction reachable with
  | opened created opening =>
    refine .inl ?_
    obtain ⟨main, -, -, alone | ⟨preamble, -, -, isPreamble, both⟩⟩ :=
      frames_openMain created opening
    · rw [alone]
      exact List.pairwise_singleton _ _
    · rw [both]
      refine List.pairwise_pair.mpr fun notPreamble => ?_
      rw [isPreamble] at notPreamble
      cases notPreamble
  | @step r next token reachable stepped ih =>
    obtain once | ⟨before, reached, misplaces, leads⟩ := ih
    · obtain onceMore | misplaces := (reachable.consistent.moves stepped).opensOnce once
      · exact .inl onceMore
      · exact .inr ⟨r, reachable, misplaces, .step .refl stepped⟩
    · exact .inr ⟨before, reached, misplaces, .step leads stepped⟩
  | @beside r next reachable beside ih =>
    obtain once | ⟨before, reached, misplaces, leads⟩ := ih
    · exact .inl (beside.frames ▸ once)
    · exact .inr ⟨before, reached, misplaces, .beside leads beside⟩

/-! ## Reading ends -/

theorem IsFinished.beside (finished : r.IsFinished) (beside : r.Beside next) : next.IsFinished := by
  obtain ⟨idle, ends⟩ := finished
  refine ⟨beside.queued.trans idle, ?_⟩
  rw [beside.frames]
  exact ends.imp_right beside.ended

/-- Pulling a token before everything is read leaves less to read. -/
theorem pull_less (unfinished : ¬r.IsFinished) : Less setup (r.pull setup).2 r := by
  cases stepped : r.step setup with
  | give token after =>
    rw [pull_of_give stepped]
    exact less_of_unfinished unfinished stepped
  | goOn after =>
    have less : Less setup after r := less_of_below (below_of_goOn stepped)
    rw [pull_of_goOn stepped]
    obtain further | ⟨-, same⟩ := pull_progress setup after
    · exact further.trans less
    · rw [Less, amount_of_sameState same]
      exact less

variable (setup) in
theorem less_wf : WellFounded (Less setup) :=
  InvImage.wf (amount setup) (WellFounded.prod_lex Levels.below_wf Nat.lt_wfRel.wf)

/-- However a run goes on between its pulls, it comes to the end. -/
theorem exists_isFinished {readers : Nat → Reader}
    (pulls : ∀ n, ((readers n).pull setup).2.Beside (readers (n + 1))) :
    ∃ n, ∀ m, n ≤ m → (readers m).IsFinished := by
  have goesDown (n : Nat) (unfinished : ¬(readers n).IsFinished) :
      Less setup (readers (n + 1)) (readers n) := by
    have less : Less setup ((readers n).pull setup).2 (readers n) := pull_less unfinished
    have beside := pulls n
    unfold Less amount at less ⊢
    rwa [beside.frames, beside.queued]
  have comesTo (r : Reader) (n : Nat) (here : readers n = r) : ∃ m, (readers m).IsFinished := by
    induction r using (less_wf setup).induction generalizing n with
    | h r ih =>
      by_cases finished : (readers n).IsFinished
      · exact ⟨n, finished⟩
      · exact ih _ (here ▸ goesDown n finished) (n + 1) rfl
  obtain ⟨n, finished⟩ := comesTo _ 0 rfl
  refine ⟨n, fun m later => ?_⟩
  induction later with
  | refl => exact finished
  | step later ih =>
    have after : (readers _).pull setup = _ := pull_of_isFinished ih
    refine (ih.beside (beside_finish _)).beside ?_
    rw [← after]
    exact pulls _

/-- At any time of any run, each open file is as deep as the one below or one level deeper, and none
is deeper than allowed; no file is open twice, unless an include before has found a header whose path
leads to another file than its canonical path; and after finitely many tokens only the end is
given, whatever is done between the pulls. -/
theorem open_files_bounded (reachable : r.Reachable setup) :
    NestsWithin setup.config.maxIncludeDepth r.frames
      ∧ (OpensOnce r.frames
        ∨ ∃ before : Reader, before.Reachable setup ∧ before.Misplaces setup ∧ before.Leads setup r)
      ∧ ∀ readers : Nat → Reader, readers 0 = r →
          (∀ n, ((readers n).pull setup).2.Beside (readers (n + 1))) →
            ∃ n, ∀ m, n ≤ m → (readers m).pull setup = (readers m).finish
              ∧ (readers m).finish.1.isEnd = true := by
  refine ⟨reachable.nestsWithin, reachable.opensOnce, fun readers _ pulls => ?_⟩
  obtain ⟨n, finished⟩ := exists_isFinished pulls
  exact ⟨n, fun m later => ⟨pull_of_isFinished (finished m later), finish_isEnd.1⟩⟩

/-! A main file that includes a header. -/

/-- The header is called `h`, and no macros are defined first. -/
def includingSetup : Setup where
  config := { standardMacros := false }
  files := { entries := [([['h']], .file "y\n".toList)] }

/-- The main file. -/
def includingText : Text :=
  "#include \"h\"\n".toList

/-- The reader that has opened the main file. -/
def includingReader : Reader :=
  { freshRun.reader with
    opened := true
    baseFile := ['m']
    nextFileNumber := 2
    frames := [{
      lexer := .ofSource (.ofDecoded false includingText) ⟨['m'], ['m'], 1⟩ .standard false
      path := ['m']
      canonical := includingSetup.files.canonical ['m']
      searchIndex := none
      includeDepth := 0
      conditionDepth := 0
      isPreamble := false }] }

theorem includingReader_reachable : includingReader.Reachable includingSetup :=
  have opening : freshRun.openMain includingSetup (.ok (.ofDecoded false includingText)) ['m']
      = .ok { freshRun with reader := includingReader } := rfl
  have created : Preprocessor.create includingSetup = .ok freshRun := rfl
  .opened created opening

/-- The reader that has entered the header. -/
def nestedReader : Reader :=
  includingReader.after includingSetup 1

example : nestedReader.frames.map (·.canonical) = [['/', 'h'], ['m']] := by
  decide +kernel

/-- With the header open on top of the main file, the levels are in order, no file is open twice
unless one is misplaced, and pulling tokens again and again comes to the end. -/
theorem open_files_bounded_header :
    NestsWithin 200 nestedReader.frames
      ∧ (OpensOnce nestedReader.frames
        ∨ ∃ before : Reader, before.Reachable includingSetup ∧ before.Misplaces includingSetup
          ∧ before.Leads includingSetup nestedReader)
      ∧ ∃ n, ∀ m, n ≤ m →
          (((fun r => (r.pull includingSetup).2)^[m] nestedReader).pull includingSetup).1.isEnd
            = true := by
  obtain ⟨nests, once, ends⟩ := open_files_bounded (includingReader_reachable.after 1)
  obtain ⟨n, final⟩ := ends (fun m => (fun r => (r.pull includingSetup).2)^[m] nestedReader) rfl
    (fun m => by rw [Function.iterate_succ_apply']; exact .refl _)
  refine ⟨nests, once, n, fun m later => ?_⟩
  rw [(final m later).1]
  exact (final m later).2

end Reader

end CPreprocessor
