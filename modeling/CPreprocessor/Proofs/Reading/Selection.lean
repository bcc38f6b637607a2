/-
# The reader keeps the branches that count

Over a file whose conditionals are in order a reader gives the tokens and judges the
conditions that the tree of the file says (`reads_select`).
-/
import CPreprocessor.Proofs.Reading.Branches

namespace CPreprocessor

/-- The item is a token or a conditional directive. -/
def Item.IsPlain : Item → Prop
  | .token _ => True
  | .directive d => d.kind.isConditional = true
  | .finish _ => False

mutual

theorem Group.isPlain_of_mem (g : Group) : ∀ item ∈ g.items, item.IsPlain := by
  match g with
  | .empty => simp [Group.items]
  | .text line rest =>
    have more := rest.isPlain_of_mem
    simp only [Group.items, List.mem_append, List.mem_map]
    rintro item (⟨token, -, rfl⟩ | later)
    · trivial
    · exact more item later
  | .conditional opening opens first others rest =>
    have inner := first.isPlain_of_mem
    have branches := others.isPlain_of_mem
    have more := rest.isPlain_of_mem
    have conditional := DirectiveKind.isConditional_of_opens opens
    simp only [Group.items, List.mem_cons, List.mem_append]
    rintro item (rfl | inFirst | inOthers | later)
    · exact conditional
    · exact inner item inFirst
    · exact branches item inOthers
    · exact more item later

theorem Branches.isPlain_of_mem (b : Branches) : ∀ item ∈ b.items, item.IsPlain := by
  match b with
  | .close closing closes =>
    simp [Branches.items, Item.IsPlain, closes, DirectiveKind.isConditional]
  | .last d isLast body closing closes =>
    have inner := body.isPlain_of_mem
    simp only [Branches.items, List.mem_cons, List.mem_append, List.not_mem_nil, or_false]
    rintro item (rfl | inBody | rfl)
    · simp [Item.IsPlain, isLast, DirectiveKind.isConditional]
    · exact inner item inBody
    · simp [Item.IsPlain, closes, DirectiveKind.isConditional]
  | .further d isFurther body others =>
    have inner := body.isPlain_of_mem
    have branches := others.isPlain_of_mem
    have conditional := DirectiveKind.isConditional_of_goesOn isFurther
    simp only [Branches.items, List.mem_cons, List.mem_append]
    rintro item (rfl | inBody | inOthers)
    · exact conditional
    · exact inner item inBody
    · exact branches item inOthers

end

theorem Item.allQuiet_of_isPlain {setup : Setup} {place : Place} {items : List Item}
    (plain : ∀ item ∈ items, item.IsPlain) (s : Session) :
    Item.AllQuiet setup place items s := by
  induction items generalizing s with
  | nil => trivial
  | cons item rest ih =>
    have first : item.IsPlain := plain item List.mem_cons_self
    refine ⟨?_, ih (fun other member => plain other (List.mem_cons_of_mem _ member)) _⟩
    cases item with
    | token given => trivial
    | directive d =>
      show (d.execute setup place s).1 = .nothing
      rw [Directive.execute_of_isConditional _ _ _ _ first]
    | finish final => exact first

namespace Reader

/-! ## The main statement -/

/-- From the start of lines whose conditionals are in order, in a place that counts, the reader
gives exactly the tokens of the lines that the tree selects and judges exactly the conditions that
the tree judges, in the same order. After them the session is the one that the tree leads to, and
the open conditionals are the ones from before. -/
theorem reads_select (g : Group) {setup : Setup} {r : Reader} {frame : Frame} {outer : List Frame}
    {after : Lexer} (isOpen : r.frames = frame :: outer) (idle : r.queued = [])
    (live : r.session.conditions.isLive = true) (lines : frame.lexer.Reads g.items after) :
    ∃ last, r.Reads setup (g.select setup r.place r.session).1 last
      ∧ last.session = (g.select setup r.place r.session).2
      ∧ last.session.conditions = r.session.conditions
      ∧ (∃ guard, last.frames = { frame with lexer := after, guard } :: outer)
      ∧ (setup.config.failFast = false → r.status ≠ .aborted → ∀ n,
          let kept := (g.select setup r.place r.session).1.filterMap Event.token?
          r.pulled setup (kept.length + n) = kept ++ last.pulled setup n) := by
  have here : r.At frame outer r.session frame.lexer r :=
    ⟨frame.guard, r.status, by rw [← isOpen]⟩
  obtain ⟨last, reads, guard, status, stands⟩ := reads_processAll setup isOpen idle lines
    (Item.allQuiet_of_isPlain g.isPlain_of_mem r.session) here
  rw [g.processAll_of_live setup r.place live] at reads stands
  have session : last.session = (g.select setup r.place r.session).2 := by rw [stands]
  refine ⟨last, reads, session, ?_, ⟨guard, by rw [stands]⟩, fun lenient goesOn n =>
    reads.pulled lenient goesOn n⟩
  rw [session]
  exact g.conditions_select setup r.place r.session

/-! A file of five lines: `A` is not defined, so the line after `#else` counts. -/

/-- The lexer at the start of a file with a conditional. -/
def conditionalFile : Lexer :=
  .ofSource (.ofDecoded false "#ifdef A\nx\n#else\ny\n#endif\n".toList) .unknown .standard false

/-- The place after some items of the file. -/
def conditionalFileAfter : Nat → Lexer
  | 0 => conditionalFile
  | n + 1 => (conditionalFileAfter n).item.2

/-- A directive of the file. -/
def conditionalFileLine (n : Nat) : Directive :=
  ((conditionalFileAfter n).next.2.directive (conditionalFileAfter n).next.1).1

theorem conditionalFile_lines :
    ((conditionalFileLine 0).kind.opens = true ∧ (conditionalFileLine 2).kind = .elseBranch
        ∧ (conditionalFileLine 4).kind = .endif)
      ∧ (∀ n ∈ [0, 2, 4], startsDirective (conditionalFileAfter n).next.1 = true)
      ∧ (∀ n ∈ [1, 3], startsDirective (conditionalFileAfter n).next.1 = false)
      ∧ ∀ n ∈ [0, 1, 2, 3, 4], (conditionalFileAfter n).next.1.isEnd = false := by
  decide +kernel

/-- The tree of the file. -/
def conditionalFileTree : Group :=
  .conditional (conditionalFileLine 0) conditionalFile_lines.1.1
    (.text [(conditionalFileAfter 1).next.1] .empty)
    (.last (conditionalFileLine 2) conditionalFile_lines.1.2.1
      (.text [(conditionalFileAfter 3).next.1] .empty) (conditionalFileLine 4)
      conditionalFile_lines.1.2.2)
    .empty

theorem conditionalFile_reads :
    conditionalFile.Reads conditionalFileTree.items (conditionalFileAfter 5) := by
  obtain ⟨-, starts, others, more⟩ := conditionalFile_lines
  have directive (n : Nat) (isLine : n ∈ [0, 2, 4]) (here : n ∈ [0, 1, 2, 3, 4]) :
      (conditionalFileAfter n).item
        = (.directive (conditionalFileLine n), conditionalFileAfter (n + 1)) := by
    rw [conditionalFileAfter, Lexer.item_of_startsDirective (more n here) (starts n isLine)]
    rfl
  have token (n : Nat) (isWord : n ∈ [1, 3]) (here : n ∈ [0, 1, 2, 3, 4]) :
      (conditionalFileAfter n).item
        = (.token (conditionalFileAfter n).next.1, conditionalFileAfter (n + 1)) := by
    rw [conditionalFileAfter, Lexer.item_of_token (more n here) (others n isWord)]
  exact .directive (directive 0 (by simp) (by simp)) (.token (token 1 (by simp) (by simp))
    (.directive (directive 2 (by simp) (by simp)) (.token (token 3 (by simp) (by simp))
      (.directive (directive 4 (by simp) (by simp)) (.done _)))))

/-- The reader at the start of the file. -/
def conditionalFileReader : Reader where
  session := {
    macros := {}
    resolver := { searchPath := [], cache := { capacity := 1, capacity_pos := Nat.one_pos } } }
  frames :=
    [{ lexer := conditionalFile, path := [], canonical := [], searchIndex := none,
       includeDepth := 0, conditionDepth := 0, isPreamble := false }]

/-- Of the file, the condition is judged and the second text line is kept. -/
theorem reads_select_conditionalFile :
    (∃ last, conditionalFileReader.Reads {}
        (conditionalFileTree.select {} conditionalFileReader.place
          conditionalFileReader.session).1 last
      ∧ last.session.conditions = {})
    ∧ ((conditionalFileTree.select {} conditionalFileReader.place
          conditionalFileReader.session).1.map fun event => event.token?.map Token.lexeme)
        = [none, some ['y']] := by
  refine ⟨?_, by decide +kernel⟩
  obtain ⟨last, reads, -, same, -⟩ := reads_select conditionalFileTree (r := conditionalFileReader)
    rfl rfl rfl conditionalFile_reads
  exact ⟨last, reads, same⟩

end Reader

end CPreprocessor
