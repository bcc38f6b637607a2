/-
# What directives see of a setup

A directive sees the words of the language, the files, the clock, and whether line
directives are applied and pragmas passed on. Setups that are the same in this carry
every directive out in the same way (`Directive.execute_congr`), however they treat
guarded headers and errors.
-/
import CPreprocessor.Proofs.Directive.Conditional

namespace CPreprocessor

/-- Two setups show directives the same. -/
structure Setup.DirectsAs (setup' setup : Setup) : Prop where
  language : setup'.config.language = setup.config.language
  files : setup'.files = setup.files
  clock : setup'.clock = setup.clock
  appliesLines : setup'.config.appliesLines = setup.config.appliesLines
  passesPragmas : setup'.config.passesPragmas = setup.config.passesPragmas

variable {setup setup' : Setup} (same : setup'.DirectsAs setup)
include same

namespace Session

theorem context_congr (s : Session) (place : Place) :
    s.context setup' place = s.context setup place := by
  simp only [context, same.language, same.clock]

theorem expand_congr (s : Session) (place : Place) (tokens : List Token) :
    s.expand setup' place tokens = s.expand setup place tokens := by
  simp only [expand, s.context_congr same]

theorem readHeaderName_congr (s : Session) (place : Place) (tokens : List Token) :
    s.readHeaderName setup' place tokens = s.readHeaderName setup place tokens := by
  simp only [readHeaderName, s.expand_congr same]

theorem findHeader_congr (s : Session) (place : Place) (next : Bool) (name : IncludeName) :
    s.findHeader setup' place next name = s.findHeader setup place next name := by
  simp only [findHeader, same.files]

end Session

namespace Query

theorem answer_congr (place : Place) (site : Token) (s : Session) (query : Query) :
    query.answer setup' place site s = query.answer setup place site s := by
  cases query with
  | defined name => rfl
  | feature => rfl
  | header onward inner =>
    simp only [answer, s.readHeaderName_congr same, fun (t : Session) => t.findHeader_congr same]

theorem answerAll_congr (place : Place) (tokens : List Token) (s : Session) :
    answerAll setup' place tokens s = answerAll setup place tokens s := by
  induction size : tokens.length using Nat.strongRecOn generalizing tokens s with
  | ind size ih =>
    cases tokens with
    | nil => simp only [answerAll]
    | cons token rest =>
      simp only [List.length_cons] at size
      simp only [answerAll_cons, answer_congr same, ih rest.length (by omega) rest _ rfl]
      cases asked : read? token rest with
      | none => rfl
      | some found =>
        cases found with
        | error wrong => rfl
        | ok found =>
          have shorter := length_read? asked
          simp only [ih found.2.length (by omega) found.2 _ rfl]

end Query

namespace Directive

theorem holds_congr (d : Directive) (place : Place) (s : Session) :
    d.holds setup' place s = d.holds setup place s := by
  simp only [holds, expressionHolds, Query.answerAll_congr same,
    fun (t : Session) => t.context_congr same]

theorem includeHeader_congr (d : Directive) (place : Place) (s : Session) :
    d.includeHeader setup' place s = d.includeHeader setup place s := by
  simp only [includeHeader, fun (t : Session) => t.readHeaderName_congr same,
    fun (t : Session) => t.findHeader_congr same]

theorem pragma_congr (d : Directive) (place : Place) (s : Session) :
    d.pragma setup' place s = d.pragma setup place s := by
  simp only [pragma, reportMessage, same.passesPragmas, fun (t : Session) => t.expand_congr same]

theorem presentLine_congr (d : Directive) (place : Place) (s : Session) :
    d.presentLine setup' place s = d.presentLine setup place s := by
  simp only [presentLine, lineArguments, same.appliesLines, fun (t : Session) => t.expand_congr same]

/-- Every directive is carried out in the same way. -/
theorem execute_congr (d : Directive) (place : Place) (s : Session) :
    d.execute setup' place s = d.execute setup place s := by
  simp only [execute, carryOut, openCondition, enterFurther, holds_congr same,
    includeHeader_congr same, pragma_congr same, presentLine_congr same]

end Directive

end CPreprocessor
