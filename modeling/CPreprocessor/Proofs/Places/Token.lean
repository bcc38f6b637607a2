/-
# What is seen of places

Two runs over files that differ in their places only, or in a part of them, do the
same. A view says what is seen of the place of a token: perhaps not how many bytes
stand before it, or not the number of its file, or nothing at all. Expansion does not
look at places, except where a builtin macro asks for them or a problem is reported; a
view that hides what these need says so (`View.sees`).

This module says how a view shows tokens, macros, arguments and calls, and that the
macro table and the reading of calls are the same under every view.
-/
import Mathlib.Tactic.SplitIfs
import CPreprocessor.Include.FileSystem
import CPreprocessor.Macro.Call

namespace CPreprocessor

/-- The words that a run may come to know. The numbers and strings that operators and builtin macros make
are among them, and if anything is pasted, so is what is put together of two of them. -/
structure Vocabulary where
  has : Text → Prop
  /-- Whether macros may paste words. -/
  pastes : Bool
  append : pastes = true → ∀ {left right : Text}, has left → has right → has (left ++ right)
  number : ∀ n, has (Text.ofNat n)
  quoted : ∀ text, has ('"' :: text)

/-- All words. -/
def Vocabulary.all : Vocabulary where
  has _ := True
  pastes := true
  append _ _ _ _ _ := trivial
  number _ := trivial
  quoted _ := trivial

/-- What is seen of a token besides what it is. -/
structure View where
  /-- The number that tells files apart. -/
  number : Bool := true
  /-- The path and the shown name of the file. -/
  name : Bool := true
  line : Bool := true
  column : Bool := true
  offset : Bool := true
  /-- Whether white space stands before a token. -/
  space : Bool := true
  /-- Where the file that is read stands: how deep it is included, and where headers are looked for. -/
  level : Bool := true
  /-- Answers for headers are kept. If there are files and a search path, what is kept is only known to be
  right for them; if not, it is compared. -/
  answers : Option (FileSystem × List Text) := none
  /-- The guards of files are compared. -/
  guards : Bool := true
  /-- Reports are compared; they show the file, the line and the column, and tokens with the white
  space between them. They depend on guards. -/
  reports : Bool := true
  /-- The words that the view is for. What no word names, no macro is asked for. -/
  vocabulary : Vocabulary := .all
  reports_seen :
    reports = true → name = true ∧ line = true ∧ column = true ∧ space = true ∧ guards = true := by
    decide

namespace View

variable (v : View)

/-- What is seen of a file. -/
def file (f : FileRef) : FileRef where
  path := if v.name then f.path else []
  shown := if v.name then f.shown else []
  number := if v.number then f.number else 0

/-- What is seen of a line number. -/
def lineOf (line : Nat) : Nat :=
  if v.line then line else 0

/-- What is seen of a column. -/
def columnOf (column : Nat) : Nat :=
  if v.column then column else 0

/-- What is seen of an offset. -/
def offsetOf (offset : Nat) : Nat :=
  if v.offset then offset else 0

/-- What is seen of how deep a file is included. -/
def depthOf (depth : Nat) : Nat :=
  if v.level then depth else 0

/-- What a builtin macro asks for is seen. -/
def sees : Builtin → Bool
  | .line => v.line
  | .file => v.name
  | .includeLevel => v.level
  | _ => true

/-- The view that also shows white space. -/
def spaced : View where
  number := v.number
  name := v.name
  line := v.line
  column := v.column
  offset := v.offset
  level := v.level
  answers := v.answers
  guards := v.guards
  reports := v.reports
  vocabulary := v.vocabulary
  reports_seen := fun compared =>
    have seen := v.reports_seen compared
    ⟨seen.1, seen.2.1, seen.2.2.1, rfl, seen.2.2.2.2⟩

/-- The view of tokens that only reports show: white space before them is seen if reports are
compared. -/
def marks : View where
  number := v.number
  name := v.name
  line := v.line
  column := v.column
  offset := v.offset
  space := v.reports
  level := v.level
  answers := v.answers
  guards := v.guards
  reports := v.reports
  vocabulary := v.vocabulary
  reports_seen := fun compared =>
    have seen := v.reports_seen compared
    ⟨seen.1, seen.2.1, seen.2.2.1, compared, seen.2.2.2.2⟩

@[simp] theorem spaced_spaced : v.spaced.spaced = v.spaced := rfl

@[simp] theorem marks_spaced : v.spaced.marks = v.marks := rfl

/-- The view that shows everything but reports. -/
def unreported : View :=
  { reports := false }

/-- The view that shows everything but offsets. -/
def withoutOffsets : View :=
  { offset := false }

/-- The view that shows everything but the numbers of files. Reports and recorded guards are not
compared. -/
def unnumbered : View :=
  { number := false, guards := false, reports := false }

theorem file_file (f : FileRef) : v.file (v.file f) = v.file f := by
  simp only [file]
  cases v.name <;> cases v.number <;> rfl

theorem shown_eq_of_file_eq (seen : v.name = true) {f g : FileRef} (same : v.file f = v.file g) :
    f.shown = g.shown := by
  simpa [file, seen] using congrArg FileRef.shown same

end View

/-- The call as it is seen. -/
def CallSite.seen (v : View) (site : CallSite) : CallSite where
  lexeme := site.lexeme
  file := v.file site.file
  line := v.lineOf site.line
  column := v.columnOf site.column
  offset := v.offsetOf site.offset

namespace Token

/-- The token as it is seen. -/
def seen (v : View) (token : Token) : Token :=
  { token with
    file := v.file token.file
    line := v.lineOf token.line
    column := v.columnOf token.column
    offset := v.offsetOf token.offset
    afterSpace := v.space && token.afterSpace
    calls := token.calls.map (CallSite.seen v) }

variable (v : View) (token : Token)

@[simp] theorem kind_seen : (token.seen v).kind = token.kind := (rfl)
@[simp] theorem lexeme_seen : (token.seen v).lexeme = token.lexeme := (rfl)
@[simp] theorem file_seen : (token.seen v).file = v.file token.file := rfl
@[simp] theorem afterSpace_seen : (token.seen v).afterSpace = (v.space && token.afterSpace) := rfl
@[simp] theorem atLineStart_seen : (token.seen v).atLineStart = token.atLineStart := rfl
@[simp] theorem verbatim_seen : (token.seen v).verbatim = token.verbatim := rfl
@[simp] theorem hideSet_seen : (token.seen v).hideSet = token.hideSet := rfl
@[simp] theorem error_seen : (token.seen v).error = token.error := rfl
@[simp] theorem isEnd_seen : (token.seen v).isEnd = token.isEnd := (rfl)
@[simp] theorem isOpen_seen : (token.seen v).isOpen = token.isOpen := (rfl)
@[simp] theorem isClose_seen : (token.seen v).isClose = token.isClose := (rfl)
@[simp] theorem isHash_seen : (token.seen v).isHash = token.isHash := (rfl)
@[simp] theorem isPaste_seen : (token.seen v).isPaste = token.isPaste := (rfl)
@[simp] theorem isName_seen : (token.seen v).isName = token.isName := (rfl)

@[simp] theorem isPunctuator_seen (lexeme : Text) :
    (token.seen v).isPunctuator lexeme = token.isPunctuator lexeme := (rfl)

@[simp] theorem isNamed_seen (name : Text) :
    (token.seen v).isNamed name = token.isNamed name := (rfl)

/-- What is seen of a token is seen as it is. -/
theorem seen_seen : (token.seen v).seen v = token.seen v := by
  have line (n : Nat) : v.lineOf (v.lineOf n) = v.lineOf n := by
    simp only [View.lineOf]
    cases v.line <;> rfl
  have column (n : Nat) : v.columnOf (v.columnOf n) = v.columnOf n := by
    simp only [View.columnOf]
    cases v.column <;> rfl
  have offset (n : Nat) : v.offsetOf (v.offsetOf n) = v.offsetOf n := by
    simp only [View.offsetOf]
    cases v.offset <;> rfl
  have sites : CallSite.seen v ∘ CallSite.seen v = CallSite.seen v := by
    funext site
    simp only [Function.comp_apply, CallSite.seen, View.file_file, line, column, offset]
  simp only [seen, View.file_file, line, column, offset, List.map_map, sites, ← Bool.and_assoc,
    Bool.and_self]

variable {v} in
/-- What does not depend on what a view hides is the same for tokens that look alike. -/
theorem congr_seen {α : Sort*} (f : Token → α) (blind : ∀ token, f (token.seen v) = f token)
    {a b : Token} (same : a.seen v = b.seen v) : f a = f b := by
  rw [← blind a, ← blind b, same]

variable {v} in
/-- What is seen together with white space is seen without it. -/
theorem seen_of_spaced {a b : Token} (same : a.seen v.spaced = b.seen v.spaced) :
    a.seen v = b.seen v := by
  have space : a.afterSpace = b.afterSpace := by
    simpa [View.spaced] using congrArg Token.afterSpace same
  have fields := congrArg (fun token : Token => { token with afterSpace := v.space && a.afterSpace })
    same
  rw [seen, seen, ← space]
  exact fields

variable {v} in
/-- What is seen of a token is enough to see what reports show of it. -/
theorem seen_marks_of_seen {a b : Token} (same : a.seen v = b.seen v) :
    a.seen v.marks = b.seen v.marks := by
  have space : (v.marks.space && a.afterSpace) = (v.marks.space && b.afterSpace) := by
    cases compared : v.reports with
    | false => simp only [View.marks, compared, Bool.false_and]
    | true =>
      have seen := congrArg Token.afterSpace same
      rw [afterSpace_seen, afterSpace_seen, (v.reports_seen compared).2.2.2.1, Bool.true_and,
        Bool.true_and] at seen
      rw [seen]
  have fields := congrArg
    (fun token : Token => { token with afterSpace := v.marks.space && a.afterSpace }) same
  rw [seen, seen, ← space]
  exact fields

variable {v} in
theorem map_seen_of_spaced {as bs : List Token}
    (same : as.map (seen v.spaced) = bs.map (seen v.spaced)) : as.map (seen v) = bs.map (seen v) := by
  induction as generalizing bs with
  | nil =>
    rw [List.map_nil, eq_comm, List.map_eq_nil_iff] at same
    rw [same]
  | cons a as ih =>
    obtain ⟨b, bs, rfl⟩ : ∃ b rest, bs = b :: rest := by
      cases bs with
      | nil => simp at same
      | cons b rest => exact ⟨b, rest, rfl⟩
    simp only [List.map_cons, List.cons.injEq] at same ⊢
    exact ⟨seen_of_spaced same.1, ih same.2⟩

end Token

/-! ## Macros -/

/-- The replacement as it is seen. -/
def Replacement.seen (v : View) : Replacement → Replacement
  | .builtin kind => .builtin kind
  | .object body => .object (body.map (Token.seen v))
  | .function parameters body => .function parameters (body.map (Token.seen v))

namespace Macro

/-- The macro as it is seen. -/
def seen (v : View) (m : Macro) : Macro :=
  { m with replacement := m.replacement.seen v, definedAt := m.definedAt.map (Token.seen v) }

variable (v : View) (m : Macro)

@[simp] theorem name_seen : (m.seen v).name = m.name := rfl

@[simp] theorem replacement_seen : (m.seen v).replacement = m.replacement.seen v := rfl

theorem body_seen : (m.seen v).body = m.body.map (Token.seen v) := by
  obtain ⟨name, replacement, definedAt⟩ := m
  cases replacement <;> rfl

theorem parameters_seen : (m.seen v).parameters = m.parameters := by
  obtain ⟨name, replacement, definedAt⟩ := m
  cases replacement <;> rfl

theorem isFunctionLike_seen : (m.seen v).isFunctionLike = m.isFunctionLike := by
  obtain ⟨name, replacement, definedAt⟩ := m
  cases replacement <;> rfl

theorem builtin?_seen : (m.seen v).builtin? = m.builtin? := by
  obtain ⟨name, replacement, definedAt⟩ := m
  cases replacement <;> rfl

variable {v} in
theorem sameBody_seen (spaces : v.space = true) (a b : List Token) :
    sameBody (a.map (Token.seen v)) (b.map (Token.seen v)) = sameBody a b := by
  simp only [sameBody, List.map_map, ← List.map_drop]
  have space : (fun token => token.afterSpace) ∘ Token.seen v = Token.afterSpace := by
    funext token
    simp [spaces]
  rw [space]
  rfl

variable {v} in
theorem sameDefinition_seen (spaces : v.space = true) (a b : Macro) :
    (a.seen v).sameDefinition (b.seen v) = a.sameDefinition b := by
  simp only [sameDefinition, builtin?_seen, isFunctionLike_seen, parameters_seen, body_seen,
    sameBody_seen spaces]

end Macro

namespace Parameters

variable (v : View) (p : Parameters) (token : Token)

@[simp] theorem indexOf?_seen : p.indexOf? (token.seen v) = p.indexOf? token := (rfl)

@[simp] theorem isVariadicAt_seen : p.isVariadicAt (token.seen v) = p.isVariadicAt token := (rfl)

@[simp] theorem isOptional_seen : p.isOptional (token.seen v) = p.isOptional token := (rfl)

end Parameters

namespace MacroTable

/-- The table as it is seen. -/
def seen (v : View) (table : MacroTable) : MacroTable where
  macros := table.macros.map (Macro.seen v)
  saved := table.saved.map fun entry => (entry.1, entry.2.map (Macro.seen v))

variable (v : View) (table : MacroTable)

@[simp] theorem find?_seen (name : Text) :
    (table.seen v).find? name = (table.find? name).map (Macro.seen v) := by
  simp only [find?, seen, List.find?_map]
  rfl

@[simp] theorem findToken?_seen (token : Token) :
    (table.seen v).findToken? (token.seen v) = (table.findToken? token).map (Macro.seen v) := by
  rw [findToken?, findToken?, Token.isName_seen, Token.lexeme_seen, find?_seen]
  split <;> rfl

@[simp] theorem isDefined_seen (name : Text) :
    (table.seen v).isDefined name = table.isDefined name := by
  simp only [isDefined, find?_seen, Option.isSome_map]

theorem erase_seen (name : Text) : (table.seen v).erase name = (table.erase name).seen v := by
  simp only [erase, seen, List.filter_map]
  rfl

theorem insert_seen (m : Macro) : (table.seen v).insert (m.seen v) = (table.insert m).seen v := by
  simp only [insert, Macro.name_seen, erase_seen]
  rfl

variable {v} in
/-- A definition does the same under every view that shows white space. -/
theorem define_seen (spaces : v.space = true) (m : Macro) :
    (table.seen v).define (m.seen v) = ((table.define m).1, (table.define m).2.seen v) := by
  simp only [define, Macro.name_seen, find?_seen]
  cases table.find? m.name with
  | none => simp only [Option.map_none, insert_seen]
  | some old =>
      simp only [Option.map_some, Macro.sameDefinition_seen spaces]
      split
      · rfl
      · simp only [insert_seen]

theorem push_seen (name : Text) : (table.seen v).push name = (table.push name).seen v := by
  simp only [push, find?_seen]
  rfl

theorem eraseP_seen (saved : List (Text × Option Macro)) (name : Text) :
    (saved.map fun entry => (entry.1, entry.2.map (Macro.seen v))).eraseP (·.1 == name) =
      (saved.eraseP (·.1 == name)).map fun entry => (entry.1, entry.2.map (Macro.seen v)) := by
  rw [List.eraseP_map]
  rfl

/-- Restoring a definition does the same under every view. -/
theorem pop_seen (name : Text) :
    (table.seen v).pop name = ((table.pop name).1, (table.pop name).2.seen v) := by
  have found : (table.seen v).saved.find? (·.1 == name) =
      (table.saved.find? (·.1 == name)).map fun entry => (entry.1, entry.2.map (Macro.seen v)) := by
    rw [seen, List.find?_map]
    rfl
  have left : ({ table.seen v with saved := (table.seen v).saved.eraseP (·.1 == name) } : MacroTable) =
      ({ table with saved := table.saved.eraseP (·.1 == name) } : MacroTable).seen v := by
    simp only [seen, eraseP_seen]
  simp only [pop, found, left]
  cases table.saved.find? (·.1 == name) with
  | none => rfl
  | some entry =>
      obtain ⟨kept, definition⟩ := entry
      cases definition with
      | none => simp only [Option.map_some, Option.map_none, erase_seen]
      | some m =>
          simp only [Option.map_some]
          exact congrArg (Prod.mk true) (insert_seen v _ { m with name })

end MacroTable

/-! ## White space -/

theorem Token.seen_spaced (v : View) (token : Token) : (token.seen v.spaced).seen v = token.seen v :=
  seen_of_spaced (token.seen_seen v.spaced)

theorem Macro.seen_spaced (v : View) (m : Macro) : (m.seen v.spaced).seen v = m.seen v := by
  have list (tokens : List Token) :
      (tokens.map (Token.seen v.spaced)).map (Token.seen v) = tokens.map (Token.seen v) := by
    rw [List.map_map]
    exact List.map_congr_left fun token _ => token.seen_spaced v
  obtain ⟨name, replacement, definedAt⟩ := m
  have site : (definedAt.map (Token.seen v.spaced)).map (Token.seen v) = definedAt.map (Token.seen v) := by
    cases definedAt with
    | none => rfl
    | some token => exact congrArg some (token.seen_spaced v)
  cases replacement <;> simp only [seen, Replacement.seen, list, site]

/-- What is seen together with white space shows what is seen without it. -/
theorem MacroTable.seen_spaced (v : View) (table : MacroTable) :
    (table.seen v.spaced).seen v = table.seen v := by
  have saved (definition : Option Macro) :
      (definition.map (Macro.seen v.spaced)).map (Macro.seen v) = definition.map (Macro.seen v) := by
    cases definition with
    | none => rfl
    | some m => exact congrArg some (m.seen_spaced v)
  simp only [seen, List.map_map, mk.injEq]
  exact ⟨List.map_congr_left fun m _ => m.seen_spaced v,
    List.map_congr_left fun entry _ => Prod.ext rfl (saved entry.2)⟩

/-! ## Arguments and calls -/

namespace Arguments

/-- The arguments as they are seen. -/
def seen (v : View) (a : Arguments) : Arguments where
  pieces := a.pieces.map (·.map (Token.seen v))
  close := a.close.seen v
  rest := a.rest.map (Token.seen v)

variable (v : View)

theorem prepend_seen (token : Token) (pieces : List (List Token)) :
    prepend (token.seen v) (pieces.map (·.map (Token.seen v))) =
      (prepend token pieces).map (·.map (Token.seen v)) := by
  cases pieces <;> rfl

theorem read_seen (commas : Option Nat) (depth : Nat) (tokens : List Token) :
    read commas depth (tokens.map (Token.seen v)) = (read commas depth tokens).map (seen v) := by
  induction tokens generalizing commas depth with
  | nil => rfl
  | cons token rest ih =>
      have inner := ih commas
        (if token.isOpen then depth + 1 else if token.isClose then depth - 1 else depth)
      have later := ih (commas.map (· - 1)) 0
      rw [List.map_cons, read, read]
      by_cases isEnd : token.isEnd = true
      · simp [isEnd]
      · by_cases closes : (depth = 0 && token.isClose) = true
        · simp [isEnd, closes, seen]
        · by_cases separates : (depth = 0 && token.isPunctuator [','] && commas ≠ some 0) = true
          · simp only [Token.isEnd_seen, Token.isClose_seen, Token.isPunctuator_seen, isEnd,
              closes, separates, Bool.false_eq_true, if_false, if_true, later]
            cases read (commas.map (· - 1)) 0 rest <;> rfl
          · simp only [Token.isEnd_seen, Token.isClose_seen, Token.isPunctuator_seen,
              Token.isOpen_seen, isEnd, closes, separates, Bool.false_eq_true, if_false]
            refine (congrArg (Option.map _) inner).trans ?_
            cases read commas _ rest with
            | none => rfl
            | some a => simp only [Option.map_some, seen, prepend_seen]

theorem depthAfter_seen (depth : Nat) (tokens : List Token) :
    depthAfter depth (tokens.map (Token.seen v)) = depthAfter depth tokens := by
  induction tokens generalizing depth with
  | nil => rfl
  | cons token rest ih =>
      simp only [List.map_cons, depthAfter, Token.isEnd_seen, Token.isClose_seen,
        Token.isOpen_seen, ih]

theorem count_seen (p : Parameters) (pieces : List (List Token)) :
    count p (pieces.map (·.map (Token.seen v))) = count p pieces := by
  have empty : (pieces.map (·.map (Token.seen v)) == [[]]) = (pieces == [[]]) := by
    rw [Bool.eq_iff_iff, beq_iff_eq, beq_iff_eq]
    match pieces with
    | [] => simp
    | [piece] => simp
    | first :: second :: more => simp
  simp only [count, empty, List.length_map]

theorem fit_seen (p : Parameters) (pieces : List (List Token)) :
    fit p (pieces.map (·.map (Token.seen v))) =
      (fit p pieces).map (·.map (·.map (Token.seen v))) := by
  simp only [fit, count_seen, List.length_map]
  split_ifs <;> simp [Except.map]

end Arguments

/-- The call as it is seen. -/
def Call.seen (v : View) (c : Call) : Call where
  called := c.called.seen v
  site := c.site.seen v
  arguments := c.arguments.map (·.map (Token.seen v))
  hidden := c.hidden
  rest := c.rest.map (Token.seen v)

namespace Head

/-- The head as it is seen. -/
def seen (v : View) : Head → Head
  | .plain token rest => .plain (token.seen v) (rest.map (Token.seen v))
  | .builtin kind site rest => .builtin kind (site.seen v) (rest.map (Token.seen v))
  | .rejected code site rest => .rejected code (site.seen v) (rest.map (Token.seen v))
  | .call c => .call (c.seen v)

variable (v : View)

theorem ofMacro_seen (m : Macro) (site : Token) (rest : List Token) :
    ofMacro (m.seen v) (site.seen v) (rest.map (Token.seen v)) = (ofMacro m site rest).seen v := by
  obtain ⟨name, replacement, definedAt⟩ := m
  cases replacement with
  | builtin kind => rfl
  | object body => rfl
  | function p body =>
      cases rest with
      | nil => rfl
      | cons opening inner =>
          simp only [ofMacro, Macro.seen, Replacement.seen, List.map_cons, Token.isOpen_seen,
            Arguments.read_seen]
          split
          · cases Arguments.read (Arguments.separators p) 0 inner with
            | none => rfl
            | some a =>
                simp only [Option.map_some, Arguments.seen, Arguments.fit_seen]
                cases Arguments.fit p a.pieces <;> rfl
          · rfl

theorem called?_seen (table : MacroTable) (token : Token) :
    called? (table.seen v) (token.seen v) = (called? table token).map (Macro.seen v) := by
  simp only [called?, Token.verbatim_seen, MacroTable.findToken?_seen]
  split
  · rfl
  · cases table.findToken? token with
    | none => rfl
    | some m =>
        simp only [Option.map_some, Option.filter, Token.hideSet_seen, Macro.name_seen]
        by_cases hidden : m.name ∈ token.hideSet <;> simp [hidden]

theorem ofToken_seen (table : MacroTable) (token : Token) (rest : List Token) :
    ofToken (table.seen v) (token.seen v) (rest.map (Token.seen v)) =
      (ofToken table token rest).seen v := by
  simp only [ofToken, called?_seen]
  cases called? table token with
  | none => rfl
  | some m => exact ofMacro_seen v m token rest

/-- The head of a list is the same under every view. -/
theorem read_seen (table : MacroTable) (tokens : List Token) :
    read (table.seen v) (tokens.map (Token.seen v)) = (read table tokens).map (seen v) := by
  cases tokens with
  | nil => rfl
  | cons token rest =>
      simp only [List.map_cons, read, Token.isEnd_seen, ofToken_seen]
      split <;> rfl

end Head

end CPreprocessor
