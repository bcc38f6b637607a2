/-
# Macros that make strings

A macro makes a string of an argument only where one of its parameters follows a `#` in its
replacement list (`Parameters.makesString`). What a list does not ask for, no part of it asks
for, and so neither do the optional parts that are substituted on their own
(`Operation.read_of_makesString`).
-/
import CPreprocessor.Proofs.Expansion.Origins

namespace CPreprocessor

namespace Parameters

variable (p : Parameters)

/-- A parameter follows a `#` in the list. -/
def makesString : List Token → Bool
  | hash :: next :: rest =>
    hash.isHash && (p.indexOf? next).isSome || makesString (next :: rest)
  | _ => false

variable {p}

theorem makesString_of_suffix {part tokens : List Token} (suffix : part <:+ tokens)
    (none : p.makesString tokens = false) : p.makesString part = false := by
  obtain ⟨before, rfl⟩ := suffix
  induction before with
  | nil => exact none
  | cons token before ih =>
    apply ih
    cases rest : before ++ part with
    | nil => rfl
    | cons next rest' =>
      rw [List.cons_append, rest, makesString, Bool.or_eq_false_iff] at none
      exact none.2

theorem makesString_of_prefix {part tokens : List Token} ( isPrefix : part <+: tokens)
    (none : p.makesString tokens = false) : p.makesString part = false := by
  obtain ⟨after, rfl⟩ := isPrefix
  induction part with
  | nil => rfl
  | cons token part ih =>
    cases part with
    | nil => rfl
    | cons next part =>
      rw [List.cons_append, List.cons_append, makesString, Bool.or_eq_false_iff] at none
      rw [makesString, none.1, Bool.false_or]
      exact ih none.2

/-- What a list does not ask for, no stretch of it asks for. -/
theorem makesString_of_infix {part tokens : List Token} ( isInfix : part <:+: tokens)
    (none : p.makesString tokens = false) : p.makesString part = false := by
  obtain ⟨rest, first, last⟩ := List.infix_iff_prefix_suffix.mp isInfix
  exact makesString_of_prefix first (makesString_of_suffix last none)

end Parameters

/-- Where no parameter follows a `#`, the head of the list makes no string, and neither do what it
carries along and what follows it. -/
theorem Operation.read_of_makesString {p : Parameters} {token : Token} {rest : List Token}
    (none : p.makesString (token :: rest) = false) :
    (∀ hash position, (read p token rest).1 ≠ .stringize hash position)
      ∧ p.makesString (read p token rest).1.content = false
      ∧ p.makesString (read p token rest).2 = false := by
  have reads := reads_read p token rest
  obtain ⟨inside, behind⟩ := reads.parts
  have later : rest <:+ token :: rest := List.suffix_cons token rest
  refine ⟨fun hash position string => ?_,
    Parameters.makesString_of_infix (inside.trans later.isInfix) none,
    Parameters.makesString_of_suffix (behind.trans later) none⟩
  generalize (read p token rest).2 = after at reads
  rw [string] at reads
  cases reads with
  | string isHash index => simp [Parameters.makesString, isHash, index] at none

end CPreprocessor
