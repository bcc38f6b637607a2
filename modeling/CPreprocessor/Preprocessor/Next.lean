/-
# The next token of a run

The next token is the next expanded one, except that pragma operators are carried
out on the way. A run that is to end with its first error ends here: after the
error only the end of the file is given.
-/
import CPreprocessor.Preprocessor.PragmaOperator

namespace CPreprocessor.Preprocessor

/-- The run has ended with its first error. -/
def isAborted (p : Preprocessor) : Bool :=
  p.reader.status = .aborted

/-- End the run if there has been an error and the run is to end with its first one. -/
def checkAbort (setup : Setup) (p : Preprocessor) : Preprocessor :=
  { p with reader := p.reader.checkAbort setup }

/-- The end of the file. -/
def finish (p : Preprocessor) : Token × Preprocessor :=
  (p.reader.finish.1, { p with reader := p.reader.finish.2 })

/-- Give a token, unless the run has ended. -/
def give (token : Token) (p : Preprocessor) : Token × Preprocessor :=
  if p.isAborted then p.finish else (token, p)

/-- A token as part of what is passed on. -/
def verbatim (token : Token) : Token :=
  { token with verbatim := true }

/-- The run with the operand of a pragma operator that is passed on. -/
def passOperand (p : Preprocessor) (operand : PragmaOperand) : Preprocessor :=
  p.pushBack ([operand.opening, operand.literal, operand.close].map verbatim)

variable {setup : Setup}

theorem notMore_checkAbort (p : Preprocessor) : NotMore setup (p.checkAbort setup) p := by
  unfold checkAbort Reader.checkAbort
  split
  · exact notMore_of_subset rfl rfl fun _ member => member
  · exact NotMore.refl p

/-- An operator that has been carried out leaves less. -/
theorem less_of_pragma {p q : Preprocessor} {token : Token} {operand : PragmaOperand}
    (expanded : (p.expandNext setup).1 = token) (starts : startsPragma token = true)
    (read : ((p.expandNext setup).2.checkAbort setup).readOperand setup token = (some operand, q)) :
    Less setup (q.applyPragma setup token operand.literal).2 p := by
  have more : (p.expandNext setup).1.isEnd = false := by
    rw [expanded]
    cases kind : token.kind <;>
      simp_all [startsPragma, Token.isNamed, Token.isName, Token.isEnd]
  exact (((notMore_applyPragma _ _ q).trans (notMore_readOperand read)).trans
    (notMore_checkAbort _)).trans_less ((expandNext_progress p).2 more)

/-- The next token; after the end of the main file, its end again. -/
def next (setup : Setup) (p : Preprocessor) : Token × Preprocessor :=
  if p.isAborted then
    p.finish
  else
    let token := (p.expandNext setup).1
    let q := (p.expandNext setup).2.checkAbort setup
    if _starts : startsPragma token = true then
      if q.isAborted then
        q.finish
      else
        match _read : q.readOperand setup token with
        | (none, q) => (token, q)
        | (some operand, q) =>
          match _applied : q.applyPragma setup token operand.literal with
          | (true, q) => give (verbatim token) ((q.checkAbort setup).passOperand operand)
          | (false, q) => next setup q
    else
      give token q
  termination_by amount setup p
  decreasing_by
    have less := less_of_pragma rfl _starts _read
    rw [_applied] at less
    exact lex_of_less less

end CPreprocessor.Preprocessor
