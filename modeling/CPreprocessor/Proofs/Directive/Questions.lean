/-
# Reading the questions of a condition

The questions of a condition are read from left to right. `Query.Scans` says that the reading comes to a
certain place of the condition. It comes there whatever is written after that place
(`Scans.answerAll_congr`), so that the answer to a question may be written in its place
(`Scans.answerAll_defined`).
-/
import CPreprocessor.Proofs.Directive.Conditional
import CPreprocessor.Proofs.Directive.Macros
import CPreprocessor.Proofs.Expansion.Origins

namespace CPreprocessor

namespace Operation

/-- The number of open parentheses after a token that closes none of the first ones. -/
def depthAfter (token : Token) (depth : Nat) : Nat :=
  if token.isOpen then depth + 1 else if token.isClose then depth - 1 else depth

theorem splitClose?_cons (depth : Nat) (token : Token) (rest : List Token) :
    splitClose? depth (token :: rest) =
      if token.isClose && depth = 0 then some ([], rest)
      else (splitClose? (depthAfter token depth) rest).map fun parts => (token :: parts.1, parts.2) :=
  rfl

/-- The first of some parentheses closes with the next token or later. -/
theorem splitClose?_cons_eq_some {depth : Nat} {token : Token} {rest inner after : List Token}
    (closes : splitClose? depth (token :: rest) = some (inner, after)) :
    (token.isClose = true ∧ depth = 0 ∧ after = rest) ∨
      ∃ inner', splitClose? (depthAfter token depth) rest = some (inner', after) := by
  rw [splitClose?_cons] at closes
  split_ifs at closes with here
  · cases closes
    simp only [Bool.and_eq_true, decide_eq_true_eq] at here
    exact .inl ⟨here.1, here.2, rfl⟩
  · obtain ⟨⟨inner', after'⟩, later, same⟩ := Option.map_eq_some_iff.mp closes
    cases same
    exact .inr ⟨inner', later⟩

/-- Where parentheses close does not depend on what follows them. -/
theorem splitClose?_rest {depth : Nat} {content after : List Token} {close : Token}
    (found : splitClose? depth (content ++ close :: after) = some (content, after))
    (after' : List Token) :
    splitClose? depth (content ++ close :: after') = some (content, after') := by
  induction content generalizing depth with
  | nil =>
    rw [List.nil_append, splitClose?_cons] at found ⊢
    split_ifs at found ⊢
    · rfl
    · obtain ⟨parts, -, same⟩ := Option.map_eq_some_iff.mp found
      cases same
  | cons token content ih =>
    rw [List.cons_append, splitClose?_cons] at found ⊢
    split_ifs at found ⊢
    · cases found
    · obtain ⟨parts, closes, same⟩ := Option.map_eq_some_iff.mp found
      cases same
      rw [ih closes]
      rfl

/-- Parentheses are read without regard to what follows them. -/
theorem parenthesized?_rest {inner asked after : List Token}
    (found : parenthesized? (asked ++ after) = some (inner, after)) :
    (∃ opening rest, opening.isOpen = true ∧ asked = opening :: rest) ∧
      ∀ after', parenthesized? (asked ++ after') = some (inner, after') := by
  obtain ⟨opening, close, opens, -, split⟩ := exists_of_parenthesized? found
  have whole : asked ++ after = opening :: (inner ++ [close]) ++ after := by
    rw [split]
    simp
  obtain rfl := List.append_cancel_right whole
  refine ⟨⟨opening, _, opens, rfl⟩, fun after' => ?_⟩
  simp only [List.cons_append, List.append_assoc, List.nil_append, parenthesized?, opens,
    if_true] at found ⊢
  exact splitClose?_rest found after'

end Operation

namespace Query

/-- The questions of `before` are read one after the other, and the reading comes to `tail`. -/
inductive Scans : List Token → List Token → Prop
  | nil {tail : List Token} : Scans [] tail
  | token {token : Token} {before tail : List Token} (other : read? token (before ++ tail) = none)
      (more : Scans before tail) : Scans (token :: before) tail
  | question {token : Token} {asked before tail : List Token} {query : Query}
      (read : read? token (asked ++ (before ++ tail)) = some (.ok (query, before ++ tail)))
      (more : Scans before tail) : Scans (token :: (asked ++ before)) tail

/-! ## What follows a question -/

/-- What `defined` asks about: the name after it, alone or in parentheses. -/
theorem readDefined_eq_ok {rest after : List Token} {query : Query}
    (found : readDefined rest = .ok (query, after)) :
    ∃ x, x.isName = true ∧ query = .defined x.lexeme ∧
      (x.isOpen = false ∧ rest = x :: after ∨
        ∃ opening close, opening.isOpen = true ∧ close.isClose = true ∧
          rest = opening :: x :: close :: after) := by
  unfold readDefined at found
  simp only at found
  split at found
  · cases found
  · rename_i token rest
    split_ifs at found with opens
    · split at found
      · cases found
      · rename_i x rest
        split_ifs at found with noName
        split at found
        · cases found
        · rename_i close rest
          split_ifs at found with closes
          cases found
          exact ⟨x, by simpa using noName, rfl, .inr ⟨token, close, opens, closes, rfl⟩⟩
    · rename_i isName
      cases found
      exact ⟨token, isName, rfl, .inl ⟨Bool.eq_false_iff.mpr opens, rfl⟩⟩

theorem readDefined_rest {asked after : List Token} {query : Query}
    (found : readDefined (asked ++ after) = .ok (query, after)) (after' : List Token) :
    readDefined (asked ++ after') = .ok (query, after') := by
  obtain ⟨x, isName, rfl, ⟨notOpen, split⟩ | ⟨opening, close, opens, closes, split⟩⟩ :=
    readDefined_eq_ok found
  · obtain rfl : asked = [x] := List.append_cancel_right (split : asked ++ after = [x] ++ after)
    simp [readDefined, notOpen, isName]
  · obtain rfl : asked = [opening, x, close] :=
      List.append_cancel_right (split : asked ++ after = [opening, x, close] ++ after)
    simp [readDefined, opens, closes, isName]

/-- A question is one of `defined`, or it is in parentheses. -/
theorem read?_eq_ok {token : Token} {rest after : List Token} {query : Query}
    (found : read? token rest = some (.ok (query, after))) :
    (token.isNamed "defined".toList = true ∧ readDefined rest = .ok (query, after)) ∨
      (token.isNamed "defined".toList = false ∧
        ∃ inner, Operation.parenthesized? rest = some (inner, after)) := by
  unfold read? at found
  split_ifs at found with isDefined isHeader isFeature
  · exact .inl ⟨isDefined, Option.some.inj found⟩
  all_goals
    refine .inr ⟨Bool.eq_false_iff.mpr isDefined, ?_⟩
    cases closes : Operation.parenthesized? rest with
    | none =>
      rw [closes] at found
      cases found
    | some parts =>
      rw [closes] at found
      cases found
      exact ⟨parts.1, rfl⟩

/-- A question is read without regard to what follows it. -/
theorem read?_rest {token : Token} {asked after : List Token} {query : Query}
    (found : read? token (asked ++ after) = some (.ok (query, after))) (after' : List Token) :
    read? token (asked ++ after') = some (.ok (query, after')) := by
  unfold read? at found ⊢
  split_ifs at found with isDefined isHeader isFeature
  · rw [if_pos isDefined]
    exact congrArg some (readDefined_rest (Option.some.inj found) after')
  · rw [if_neg isDefined, if_pos isHeader]
    cases closes : Operation.parenthesized? (asked ++ after) with
    | none =>
      rw [closes] at found
      cases found
    | some parts =>
      rw [closes] at found
      cases found
      rw [(Operation.parenthesized?_rest closes).2 after']
  · rw [if_neg isDefined, if_neg isHeader]
    cases closes : Operation.parenthesized? (asked ++ after) with
    | none =>
      rw [closes] at found
      cases found
    | some parts =>
      rw [closes] at found
      cases found
      obtain ⟨⟨opening, rest, opens, rfl⟩, same⟩ := Operation.parenthesized?_rest closes
      rw [if_pos (by simpa [opens] using isFeature), same after']

/-- Whether a token asks something depends on a parenthesis after it at most. -/
theorem read?_eq_none {token : Token} {rest rest' : List Token}
    (same : rest'.head?.any Token.isOpen = rest.head?.any Token.isOpen) :
    read? token rest = none → read? token rest' = none := by
  unfold read?
  intro nothing
  split_ifs at nothing ⊢
  all_goals simp_all

/-! ## Answers -/

section Answers

variable {setup : Setup} {place : Place}

/-- Conditions that are answered alike from a place on, if the macros are the same, are answered
alike. -/
theorem Scans.answerAll_congr {before tail tail' : List Token} (macros : MacroTable)
    (scans : Scans before tail)
    (follows : tail'.head?.any Token.isOpen = tail.head?.any Token.isOpen)
    (same : ∀ s : Session, s.macros = macros →
      answerAll setup place tail' s = answerAll setup place tail s)
    {s : Session} (macros_eq : s.macros = macros) :
    answerAll setup place (before ++ tail') s = answerAll setup place (before ++ tail) s := by
  induction scans generalizing s with
  | nil => exact same s macros_eq
  | @token token before tail other more ih =>
    have head : (before ++ tail').head?.any Token.isOpen = (before ++ tail).head?.any Token.isOpen := by
      cases before with
      | nil => exact follows
      | cons first before => rfl
    rw [List.cons_append, List.cons_append, answerAll_cons, answerAll_cons, other,
      read?_eq_none head other, ih follows same macros_eq]
  | @question token asked before tail query read more ih =>
    have read' := read?_rest read (before ++ tail')
    rw [List.cons_append, List.cons_append, List.append_assoc, List.append_assoc, answerAll_cons,
      answerAll_cons, read, read']
    have kept := (macros_answer setup place token s query).trans macros_eq
    cases answered : query.answer setup place token s with
    | mk outcome s' =>
      rw [answered] at kept
      cases outcome with
      | error wrong => simp only [answered]
      | ok value => simp only [answered, ih follows same kept]

/-- The answer to a question is a number. -/
theorem read?_answerToken (site : Token) (value : Bool) (rest : List Token) :
    read? (answerToken site value) rest = none := by
  have named (name : Text) : (answerToken site value).isNamed name = false := rfl
  simp [read?, named]

/-- A question about a name that the reading comes to may be replaced by its answer. -/
theorem Scans.answerAll_defined {before rest after : List Token} {operator : Token} {name : Text}
    (scans : Scans before (operator :: rest)) (isOperator : operator.isNamed "defined".toList = true)
    (read : readDefined rest = .ok (.defined name, after)) (s : Session) :
    answerAll setup place (before ++ operator :: rest) s =
      answerAll setup place (before ++ answerToken operator (isDefined s name) :: after) s := by
  have notOpen : operator.isOpen = false := by
    cases opens : operator.isOpen with
    | false => rfl
    | true =>
      rw [Token.isNamed_of_isPunctuator opens] at isOperator
      cases isOperator
  refine (scans.answerAll_congr s.macros ?_ (fun s' macros => ?_) rfl).symm
  · rw [List.head?_cons, List.head?_cons, Option.any_some, Option.any_some, notOpen]
    rfl
  · have asked : read? operator rest = some (readDefined rest) := by
      rw [read?, if_pos isOperator]
    have same : isDefined s' name = isDefined s name := by rw [isDefined, isDefined, macros]
    rw [answerAll_cons, answerAll_cons, asked, read, read?_answerToken]
    simp only [answer, same]

end Answers

end Query

end CPreprocessor
