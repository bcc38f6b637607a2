/-
# Macro arguments

The arguments of a call stand between parentheses and are separated by commas
outside inner parentheses. The variable arguments of a macro are one argument,
commas included.
-/
import CPreprocessor.Diagnostic
import CPreprocessor.Macro

namespace CPreprocessor

/-- The arguments of a call, the parenthesis that closes it, and the tokens after it. -/
structure Arguments where
  pieces : List (List Token)
  close : Token
  rest : List Token

namespace Arguments

/-- Put a token in front of the first argument. -/
def prepend (token : Token) : List (List Token) → List (List Token)
  | [] => [[token]]
  | piece :: pieces => (token :: piece) :: pieces

/-- Read the arguments after an opening parenthesis, inside `depth` further ones. At most `commas`
commas separate arguments; without a bound, all of them do. There are no arguments if the tokens or
the file end before the call is closed. -/
def read (commas : Option Nat) (depth : Nat) : List Token → Option Arguments
  | [] => none
  | token :: rest =>
    if token.isEnd then
      none
    else if depth = 0 && token.isClose then
      some ⟨[[]], token, rest⟩
    else if depth = 0 && token.isPunctuator [','] && commas ≠ some 0 then
      (read (commas.map (· - 1)) 0 rest).map fun a => { a with pieces := [] :: a.pieces }
    else
      let inner := if token.isOpen then depth + 1 else if token.isClose then depth - 1 else depth
      (read commas inner rest).map fun a => { a with pieces := prepend token a.pieces }

/-- How deep the parentheses are after some tokens that follow an opening one, `none` once the call
is closed or the file has ended. -/
def depthAfter (depth : Nat) : List Token → Option Nat
  | [] => some depth
  | token :: rest =>
    if token.isEnd then
      none
    else if token.isClose then
      if depth = 0 then none else depthAfter (depth - 1) rest
    else
      depthAfter (if token.isOpen then depth + 1 else depth) rest

/-- The number of arguments that a call gives. A call without any token gives none to a macro
without named parameters. -/
def count (p : Parameters) (pieces : List (List Token)) : Nat :=
  if p.named = [] && pieces == [[]] then 0 else pieces.length

/-- The arguments that the parameters of a macro take from the pieces of a call. The variable
arguments may be left out. -/
def fit (p : Parameters) (pieces : List (List Token)) : Except Code (List (List Token)) :=
  let named := p.named.length
  if p.variadic.isSome then
    if pieces.length < named then
      .error .tooFewArgs
    else if pieces.length = named then
      .ok (pieces ++ [[]])
    else
      .ok pieces
  else
    if count p pieces < named then
      .error .tooFewArgs
    else if named < count p pieces then
      .error .tooManyArgs
    else
      .ok pieces

/-- The commas that separate arguments of a macro. -/
def separators (p : Parameters) : Option Nat :=
  if p.variadic.isSome then some p.named.length else none

theorem sublist_of_mem_prepend {token : Token} {pieces : List (List Token)} {rest : List Token}
    (inRest : ∀ piece ∈ pieces, piece.Sublist rest) :
    ∀ piece ∈ prepend token pieces, piece.Sublist (token :: rest) := by
  intro piece member
  match pieces with
  | [] =>
    simp only [prepend, List.mem_singleton] at member
    subst member
    exact List.Sublist.cons_cons token (List.nil_sublist rest)
  | head :: tail =>
    rcases List.mem_cons.mp member with rfl | later
    · exact List.Sublist.cons_cons token (inRest head (List.mem_cons_self ..))
    · exact List.Sublist.cons token (inRest piece (List.mem_cons_of_mem _ later))

/-- Arguments are taken from the tokens in order. -/
theorem sublist_of_read {commas : Option Nat} {depth : Nat} {tokens : List Token} {a : Arguments}
    (found : read commas depth tokens = some a) : ∀ piece ∈ a.pieces, piece.Sublist tokens := by
  induction tokens generalizing commas depth a with
  | nil => simp [read] at found
  | cons token rest ih =>
    rw [read] at found
    split at found
    · cases found
    · split at found
      · cases found
        simp
      · split at found
        · obtain ⟨b, read, rfl⟩ := Option.map_eq_some_iff.mp found
          intro piece member
          rcases List.mem_cons.mp member with rfl | later
          · exact List.nil_sublist _
          · exact List.Sublist.cons token (ih read piece later)
        · obtain ⟨b, read, rfl⟩ := Option.map_eq_some_iff.mp found
          exact sublist_of_mem_prepend (ih read)

/-- A call ends with its closing parenthesis, and the rest follows it. -/
theorem eq_of_read {commas : Option Nat} {depth : Nat} {tokens : List Token} {a : Arguments}
    (found : read commas depth tokens = some a) :
    ∃ before, tokens = before ++ a.close :: a.rest ∧ a.close.isEnd = false := by
  induction tokens generalizing commas depth a with
  | nil => simp [read] at found
  | cons token rest ih =>
    rw [read] at found
    split at found
    · cases found
    · rename_i more
      split at found
      · cases found
        exact ⟨[], rfl, by simpa using more⟩
      · split at found
        all_goals
          obtain ⟨b, read, rfl⟩ := Option.map_eq_some_iff.mp found
          obtain ⟨before, split, close⟩ := ih read
          exact ⟨token :: before, by rw [split]; rfl, close⟩

/-- Fitted arguments are pieces of the call or empty. -/
theorem mem_of_fit {p : Parameters} {pieces args : List (List Token)} (fits : fit p pieces = .ok args) :
    ∀ piece ∈ args, piece ∈ pieces ∨ piece = [] := by
  unfold fit at fits
  simp only [] at fits
  split at fits
  · split at fits
    · cases fits
    · split at fits
      · cases fits
        intro piece member
        rcases List.mem_append.mp member with inside | last
        · exact .inl inside
        · exact .inr (by simpa using last)
      · cases fits
        exact fun _ member => .inl member
  · split at fits
    · cases fits
    · split at fits
      · cases fits
      · cases fits
        exact fun _ member => .inl member

end Arguments

end CPreprocessor
