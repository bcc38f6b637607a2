/-
# Runs

A run expands the tokens that a reader gives. Tokens that macros have produced, or
that were looked at and not used, are pending: they go before what the reader
gives next. A call whose arguments are not all pending pulls the rest of them.
-/
import CPreprocessor.Reader.Progress

namespace CPreprocessor

/-- The state of a run. -/
structure Preprocessor where
  reader : Reader
  pending : List Token := []

namespace Preprocessor

/-- Pull tokens until the parentheses of a call are closed, which are `depth` deep inside the outer
ones, or until nothing is left to read. -/
def gather (setup : Setup) (depth : Nat) (r : Reader) : List Token × Reader :=
  match _after : Arguments.depthAfter depth [(r.pull setup).1] with
  | none => ([(r.pull setup).1], (r.pull setup).2)
  | some depth =>
    let more := gather setup depth (r.pull setup).2
    ((r.pull setup).1 :: more.1, more.2)
  termination_by r.amount setup
  decreasing_by
    rcases Reader.pull_progress setup r with less | ⟨isEnd, _⟩
    · exact less
    · simp [Arguments.depthAfter, isEnd] at _after

/-- Pull the rest of the arguments of a call, if `opening :: inner` starts one. -/
def gatherFrom (setup : Setup) (opening : Token) (inner : List Token) (r : Reader) :
    List Token × Reader :=
  match if opening.isOpen then Arguments.depthAfter 0 inner else none with
  | none => (opening :: inner, r)
  | some depth =>
    let more := gather setup depth r
    (opening :: (inner ++ more.1), more.2)

/-- The tokens after the name of a function-like macro with all that are needed to tell whether it is
called and with which arguments. -/
def gatherCall (setup : Setup) (r : Reader) : List Token → List Token × Reader
  | opening :: inner => gatherFrom setup opening inner r
  | [] => gatherFrom setup (r.pull setup).1 [] (r.pull setup).2

/-- What a run asks for at a token that calls a macro. -/
def headOfMacro (setup : Setup) (m : Macro) (site : Token) (p : Preprocessor) : Head × Reader :=
  if m.isFunctionLike then
    let gathered := gatherCall setup p.reader p.pending
    (Head.ofMacro m site gathered.1, gathered.2)
  else
    (Head.ofMacro m site p.pending, p.reader)

/-- The first token that is not expanded yet. -/
def take (setup : Setup) (p : Preprocessor) : Token × Preprocessor :=
  match p.pending with
  | token :: pending => (token, { p with pending })
  | [] => ((p.reader.pull setup).1, { p with reader := (p.reader.pull setup).2 })

/-- What macro expansion depends on now. -/
def context (setup : Setup) (r : Reader) : Expansion.Context :=
  r.session.context setup r.place

/-- The reader after macro expansion. -/
def withExpansion (r : Reader) (expansion : Expansion.State) : Reader :=
  { r with session := { r.session with expansion } }

/-- The run after a call has been replaced; the result is pending. -/
def replaceCall (setup : Setup) (r : Reader) (c : Call) : Preprocessor :=
  let replaced := Expansion.expandCall (context setup r) c r.session.expansion
  { reader := withExpansion r replaced.2, pending := replaced.1 ++ c.rest }

end Preprocessor

end CPreprocessor
