/-
# The main file stands below all others

A run gives each file that it opens a number, and the main file has the first one. Every
other file is opened on top of it. So a reader that reads a file with the first number
reads the main file, and no other file is open (`IsRooted.eq_main`).
-/
import CPreprocessor.Proofs.Run.Moves

namespace CPreprocessor.Reader

variable {setup : Setup} {name : Text} {r next : Reader} {frame frame' new : Frame}
  {outer : List Frame}

/-- The frame holds the main file of this name. -/
structure IsMain (setup : Setup) (name : Text) (frame : Frame) : Prop where
  path : frame.path = name
  canonical : frame.canonical = setup.files.canonical name
  searchIndex : frame.searchIndex = none
  includeDepth : frame.includeDepth = 0
  isPreamble : frame.isPreamble = false

/-- Only the outermost file, which is the main file, has the first number. -/
structure IsRooted (setup : Setup) (name : Text) (r : Reader) : Prop where
  number : 1 < r.nextFileNumber
  inner : ∀ frame ∈ r.frames.dropLast, frame.lexer.file.number ≠ 1
  main : ∀ frame, r.frames.getLast? = some frame → IsMain setup name frame

/-- A file with the first number is the main file, and the only one that is open. -/
theorem IsRooted.eq_main (rooted : r.IsRooted setup name) (isOpen : r.frames = frame :: outer)
    (first : frame.lexer.file.number = 1) : outer = [] ∧ IsMain setup name frame := by
  cases outer with
  | nil => exact ⟨rfl, rooted.main frame (by rw [isOpen]; rfl)⟩
  | cons below rest =>
    refine absurd first (rooted.inner frame ?_)
    rw [isOpen, List.dropLast_cons_of_ne_nil (List.cons_ne_nil _ _)]
    exact List.mem_cons_self

theorem IsRooted.of_same (rooted : r.IsRooted setup name) (frames : next.frames = r.frames)
    (number : next.nextFileNumber = r.nextFileNumber) : next.IsRooted setup name :=
  ⟨number ▸ rooted.number, frames ▸ rooted.inner, frames ▸ rooted.main⟩

/-- Reading on in a file leaves it where it stands. -/
theorem IsRooted.goesOn (rooted : r.IsRooted setup name) (isOpen : r.frames = frame :: outer)
    (same : next.frames = frame' :: outer) (goes : frame.GoesOn frame')
    (searchIndex : frame'.searchIndex = frame.searchIndex)
    (file : frame'.lexer.file = frame.lexer.file) (number : next.nextFileNumber = r.nextFileNumber) :
    next.IsRooted setup name := by
  have inner := rooted.inner
  have main := rooted.main
  rw [isOpen] at inner main
  refine ⟨number ▸ rooted.number, ?_, ?_⟩
  all_goals rw [same]
  · cases outer with
    | nil => simp
    | cons below rest =>
      rw [List.dropLast_cons_of_ne_nil (List.cons_ne_nil _ _)] at inner ⊢
      rw [List.forall_mem_cons] at inner ⊢
      rwa [file]
  · cases outer with
    | nil =>
      intro last isLast
      cases isLast
      have here := main frame rfl
      exact ⟨goes.path.trans here.path, goes.canonical.trans here.canonical,
        searchIndex.trans here.searchIndex, goes.includeDepth.trans here.includeDepth,
        goes.isPreamble.trans here.isPreamble⟩
    | cons below rest => exact main

/-- A file that is opened gets another number. -/
theorem IsRooted.opens (rooted : r.IsRooted setup name) (nonempty : r.frames ≠ [])
    (same : next.frames = new :: r.frames) (file : new.lexer.file.number = r.nextFileNumber)
    (number : next.nextFileNumber = r.nextFileNumber + 1) : next.IsRooted setup name := by
  have greater := rooted.number
  refine ⟨by omega, ?_, ?_⟩
  all_goals rw [same]
  · rw [List.dropLast_cons_of_ne_nil nonempty, List.forall_mem_cons]
    exact ⟨by omega, rooted.inner⟩
  · obtain ⟨first, rest, isOpen⟩ := List.exists_cons_of_ne_nil nonempty
    rw [isOpen, List.getLast?_cons_cons, ← isOpen]
    exact rooted.main

theorem IsRooted.closes (rooted : r.IsRooted setup name) (isOpen : r.frames = frame :: outer)
    (same : next.frames = outer) (number : next.nextFileNumber = r.nextFileNumber) :
    next.IsRooted setup name := by
  have inner := rooted.inner
  have main := rooted.main
  rw [isOpen] at inner main
  refine ⟨number ▸ rooted.number, ?_, ?_⟩
  all_goals rw [same]
  · cases outer with
    | nil => simp
    | cons below rest =>
      rw [List.dropLast_cons_of_ne_nil (List.cons_ne_nil _ _)] at inner
      exact (List.forall_mem_cons.mp inner).2
  · cases outer with
    | nil =>
      intro last isLast
      cases isLast
    | cons below rest => exact main

/-- Entering a header opens it above the others, or opens nothing. -/
theorem IsRooted.enter (rooted : r.IsRooted setup name) (nonempty : r.frames ≠ []) (header : Header)
    (site : Token) : (r.enter setup header site).IsRooted setup name := by
  have reported (code : Code) (detail : Text) : (r.report site code detail).IsRooted setup name :=
    rooted.of_same rfl rfl
  unfold Reader.enter
  split
  · exact rooted
  · split
    · split
      · exact rooted
      · exact reported _ _
    · unfold openHeader
      simp only []
      split
      · exact reported _ _
      · split
        · exact reported _ _
        · exact rooted.opens nonempty rfl rfl rfl

theorem IsRooted.checkAbort (rooted : r.IsRooted setup name) :
    (r.checkAbort setup).IsRooted setup name := by
  obtain ⟨status, same⟩ := exists_checkAbort setup r
  rw [same]
  exact rooted.of_same rfl rfl

theorem IsRooted.reportSpelling (rooted : r.IsRooted setup name) (token : Token) :
    (r.reportSpelling setup token).IsRooted setup name := by
  unfold Reader.reportSpelling
  split
  · exact IsRooted.checkAbort (rooted.of_same rfl rfl)
  · exact rooted

theorem IsRooted.finish (rooted : r.IsRooted setup name) : r.finish.2.IsRooted setup name := by
  unfold Reader.finish
  split
  · exact rooted
  · exact rooted.of_same rfl rfl

/-- Reading an item stays in the file. -/
theorem Consistent.file_item (consistent : r.Consistent setup) (isOpen : r.frames = frame :: outer) :
    frame.lexer.item.2.file = frame.lexer.file := by
  obtain ⟨depth, followed⟩ := consistent.exists_followed (isOpen ▸ List.mem_cons_self)
  exact (Lexer.source_item followed.skips).2.1

/-- A reader whose innermost file goes on after an item. -/
theorem IsRooted.after (rooted : r.IsRooted setup name) (consistent : r.Consistent setup)
    (isOpen : r.frames = frame :: outer) {found : Item} {rest : Lexer}
    (here : frame.lexer.item = (found, rest)) {lexer : Lexer} (file : lexer.file = rest.file)
    {guard : Guard} (same : next.frames = { frame with lexer, guard } :: outer)
    (number : next.nextFileNumber = r.nextFileNumber) : next.IsRooted setup name := by
  have stays := consistent.file_item isOpen
  rw [here] at stays
  exact rooted.goesOn isOpen same ⟨rfl, rfl, rfl, rfl, rfl⟩ rfl (file.trans stays) number

theorem IsRooted.afterDirective (rooted : r.IsRooted setup name) (consistent : r.Consistent setup)
    (isOpen : r.frames = frame :: outer) {d : Directive} {rest : Lexer}
    (here : frame.lexer.item = (.directive d, rest)) :
    (r.afterDirective setup { frame with lexer := rest } outer d).IsRooted setup name := by
  unfold Reader.afterDirective
  refine IsRooted.checkAbort ?_
  simp only []
  cases (d.execute setup r.place r.session).1 with
  | nothing => exact rooted.after consistent isOpen here rfl rfl rfl
  | pass => exact rooted.after consistent isOpen here rfl rfl rfl
  | once => exact rooted.after consistent isOpen here rfl rfl rfl
  | present line shown =>
    have file : (rest.presentLine line shown).file = rest.file := rfl
    exact rooted.after consistent isOpen here file rfl rfl
  | enter header site =>
    refine IsRooted.enter ?_ (List.cons_ne_nil _ _) header site
    exact rooted.after consistent isOpen here rfl rfl rfl

/-- A step leaves the main file below all others. -/
theorem IsRooted.step (rooted : r.IsRooted setup name) (consistent : r.Consistent setup)
    {token : Token} (stepped : r.step setup = .give token next ∨ r.step setup = .goOn next) :
    next.IsRooted setup name := by
  have cases_of := r.stepped setup
  obtain stepped | stepped := stepped
  all_goals
    rw [stepped] at cases_of
    cases cases_of
  case inl.waits => exact rooted.of_same rfl rfl
  case inl.finished => exact rooted.finish
  case inl.counts frame outer rest idle isOpen running live here =>
    refine IsRooted.reportSpelling ?_ _
    exact rooted.after consistent isOpen here rfl rfl rfl
  case inr.closes frame outer final rest idle isOpen running here =>
    refine rooted.closes isOpen rfl ?_
    unfold closeFile
    simp only []
    split
    · obtain ⟨status, same⟩ := exists_reportSpelling setup r final.1
      rw [same]
    · rfl
  case inr.carriesOut frame outer d rest idle isOpen running here =>
    exact rooted.afterDirective consistent isOpen here
  case inr.passesOver frame outer token rest idle isOpen running here dead =>
    exact rooted.after consistent isOpen here rfl rfl rfl

theorem IsRooted.of_goOn (rooted : r.IsRooted setup name) (consistent : r.Consistent setup)
    (stepped : r.step setup = .goOn next) : next.IsRooted setup name :=
  @IsRooted.step _ _ _ _ rooted consistent .endOfNothing (.inr stepped)

end CPreprocessor.Reader
