/-
# The pragma operator

`_Pragma ( "text" )` stands for a pragma in the middle of a line, where macros may
have put it. Its operand is expanded as other tokens are. An operand of another
form is reported, and the tokens are given as they are.
-/
import CPreprocessor.Preprocessor.Expansion

namespace CPreprocessor

/-- The operand of a pragma operator. -/
structure PragmaOperand where
  opening : Token
  literal : Token
  close : Token

namespace Preprocessor

/-- The name of the operator. -/
def pragmaOperator : Text :=
  "_Pragma".toList

/-- A token that starts a pragma operator. -/
def startsPragma (token : Token) : Bool :=
  token.isNamed pragmaOperator && !token.verbatim

/-- Tokens that are given next. -/
def pushBack (p : Preprocessor) (tokens : List Token) : Preprocessor :=
  { p with pending := tokens ++ p.pending }

/-- Report a problem at a token. -/
def report (p : Preprocessor) (token : Token) (code : Code) (detail : Text) : Preprocessor :=
  { p with reader := p.reader.report token code detail }

/-- Read the operand of a pragma operator. Without a parenthesis there is none, and nothing is
wrong. -/
def readOperand (setup : Setup) (keyword : Token) (p : Preprocessor) :
    Option PragmaOperand × Preprocessor :=
  let opening := p.expandNext setup
  if !opening.1.isOpen then
    (none, opening.2.pushBack [opening.1])
  else
    let literal := opening.2.expandNext setup
    let close := literal.2.expandNext setup
    if literal.1.kind = .string && close.1.isClose then
      (some ⟨opening.1, literal.1, close.1⟩, close.2)
    else
      (none,
        (close.2.report keyword .invalidDirective
          "_Pragma takes a parenthesized string literal".toList).pushBack
          [opening.1, literal.1, close.1])

/-- The tokens of the pragma in a string literal. They stand where the operator stands. -/
def pragmaTokens (setup : Setup) (keyword literal : Token) : Except SourceError (List Token) :=
  let text := (Spelling.content? literal.lexeme).getD []
  (tokenize text (some keyword.file) setup.config.language).map fun tokens =>
    (tokens.takeWhile (!·.isEnd)).map (·.placedAt keyword)

/-- Carry out a pragma. Where nothing counts it has no effect. -/
def executePragma (setup : Setup) (keyword : Token) (args : List Token) (p : Preprocessor) :
    Action × Preprocessor :=
  let d : Directive := { hash := keyword, name := some keyword, args }
  let s := p.reader.session
  if s.conditions.isLive then
    let done := d.pragma setup p.reader.place s
    (done.1, { p with reader := { p.reader with session := done.2 } })
  else
    (.nothing, p)

/-- Do not read the innermost file again. -/
def markOnce (p : Preprocessor) : Preprocessor :=
  match p.reader.frames with
  | [] => p
  | frame :: _ =>
    if frame.isPreamble then p
    else { p with reader := { p.reader with onceFiles := frame.canonical :: p.reader.onceFiles } }

/-- Carry out the pragma of an operator. The answer says whether the operator is to be passed on. -/
def applyPragma (setup : Setup) (keyword literal : Token) (p : Preprocessor) : Bool × Preprocessor :=
  match pragmaTokens setup keyword literal with
  | .error error => (false, p.report keyword .invalidDirective error.message)
  | .ok args =>
    match p.executePragma setup keyword args with
    | (.once, p) => (false, p.markOnce)
    | (.pass, p) => (true, p)
    | (_, p) => (false, p)

/-! ## Progress -/

variable {setup : Setup}

/-- The same is left to read and pending, and no more names are known. -/
theorem notMore_of_subset {p : Preprocessor} {r : Reader} (frames : r.frames = p.reader.frames)
    (queued : r.queued = p.reader.queued)
    (names : r.session.macros.knownNames ⊆ p.reader.session.macros.knownNames) :
    NotMore setup { p with reader := r } p := by
  refine .inr ⟨?_, ?_⟩
  · simp only [Reader.amount, frames, queued]
  · exact Exposure.atMost_of_subset (MacroTable.nodup_knownNames _) names _

theorem macros_report (s : Session) (token : Token) (code : Code) (detail : Text) :
    (s.report token code detail).macros = s.macros :=
  rfl

/-- A pragma makes no further name known. -/
theorem knownNames_pragma_subset (d : Directive) (place : Place) (s : Session) :
    (d.pragma setup place s).2.macros.knownNames ⊆ s.macros.knownNames := by
  unfold Directive.pragma
  split
  · exact fun _ member => member
  · split
    · unfold Directive.reportExtra
      split <;> exact fun _ member => member
    · split
      · split
        · exact MacroTable.knownNames_push_subset _ _
        · exact fun _ member => member
      · split
        · split
          · exact MacroTable.knownNames_pop_subset _ _
          · exact fun _ member => member
        · repeat' split
          all_goals exact fun _ member => member

theorem notMore_executePragma (setup : Setup) (keyword : Token) (args : List Token) (p : Preprocessor) :
    NotMore setup (p.executePragma setup keyword args).2 p := by
  unfold executePragma
  simp only []
  split
  · exact notMore_of_subset rfl rfl (knownNames_pragma_subset _ _ _)
  · exact NotMore.refl p

theorem notMore_markOnce (p : Preprocessor) : NotMore setup p.markOnce p := by
  unfold markOnce
  split
  · exact NotMore.refl p
  · split
    · exact NotMore.refl p
    · exact notMore_of_subset rfl rfl fun _ member => member

/-- Carrying out a pragma leaves not more. -/
theorem notMore_applyPragma (keyword literal : Token) (p : Preprocessor) :
    NotMore setup (p.applyPragma setup keyword literal).2 p := by
  unfold applyPragma
  split
  · exact notMore_of_subset rfl rfl fun _ member => member
  · rename_i args _
    have executed := notMore_executePragma setup keyword args p
    split
    all_goals
      rename_i done
      rw [done] at executed
    · exact (notMore_markOnce _).trans executed
    · exact executed
    · exact executed

/-- Reading an operand leaves not more. -/
theorem notMore_readOperand {keyword : Token} {p q : Preprocessor} {operand : PragmaOperand}
    (found : p.readOperand setup keyword = (some operand, q)) : NotMore setup q p := by
  unfold readOperand at found
  simp only [] at found
  split at found
  · cases found
  · split at found
    · cases found
      exact ((expandNext_progress _).1.trans (expandNext_progress _).1).trans
        (expandNext_progress p).1
    · cases found

end Preprocessor

end CPreprocessor
