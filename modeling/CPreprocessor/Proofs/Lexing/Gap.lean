/-
# What a gap leaves

A gap ends where no other gap starts: before a lexeme or at the end of the text. A
gap is never longer than its text, and no gap stands where nothing starts one.
-/
import CPreprocessor.Token.Gap
import CPreprocessor.Proofs.Lexing.Runs

namespace CPreprocessor

namespace Text

/-- A needle is found inside a text. -/
theorem find?_le {needle text : Text} {n : Nat} (found : find? needle text = some n) :
    n + needle.length ≤ text.length := by
  induction text generalizing n with
  | nil =>
      simp only [find?, Option.ite_none_right_eq_some, Option.some.injEq] at found
      simp [found.1, ← found.2]
  | cons c text ih =>
      rw [find?] at found
      cases here : needle.isPrefixOf (c :: text) with
      | true =>
          rw [here, if_pos rfl, Option.some.injEq] at found
          have short := (List.isPrefixOf_iff_prefix.mp here).length_le
          omega
      | false =>
          rw [here, if_neg Bool.false_ne_true, Option.map_eq_some_iff] at found
          obtain ⟨m, later, rfl⟩ := found
          have short := ih later
          rw [List.length_cons]
          omega

theorem lineLength_le (text : Text) : lineLength text ≤ text.length :=
  (List.takeWhile_sublist _).length_le

end Text

namespace Gap

theorem blockComment_le (rest : Text) : (blockComment rest).1 ≤ rest.length := by
  rw [blockComment]
  cases closes : Text.find? ['*', '/'] rest with
  | none => exact Nat.le_refl _
  | some inside => exact Text.find?_le closes

/-- A block comment that is not closed reaches to the end of the text. -/
theorem length_of_blockComment {rest : Text} (isOpen : (blockComment rest).2 = false) :
    (blockComment rest).1 = rest.length := by
  unfold blockComment at isOpen ⊢
  cases closes : Text.find? ['*', '/'] rest with
  | none => rfl
  | some inside =>
      rw [closes] at isOpen
      cases isOpen

theorem length_pos_of_block {c : Char} {rest : Text}
    (block : (decide (c = '/') && decide (Text.first rest = '*')) = true) : 0 < rest.length := by
  rw [Bool.and_eq_true] at block
  cases rest with
  | nil => exact absurd block.2 (by decide)
  | cons d rest => exact Nat.succ_pos _

/-- A gap starts with a line feed, a blank or a comment. -/
def starts (text : Text) : Bool :=
  Text.first text = '\n' || Text.isBlank (Text.first text)
    || (Text.first text = '/'
      && (Text.first (text.drop 1) = '/' || Text.first (text.drop 1) = '*'))

theorem read_nil (acrossLines : Bool) : read acrossLines [] = {} := by
  rw [read]

theorem read_cons (acrossLines : Bool) (c : Char) (rest : Text) :
    read acrossLines (c :: rest) =
      if c = '\n' then
        if acrossLines then (read acrossLines rest).after 1 true else {}
      else if Text.isBlank c then
        (read acrossLines rest).after 1 false
      else if c = '/' && Text.first rest = '/' then
        (read acrossLines (rest.drop (Text.lineLength rest))).after (1 + Text.lineLength rest) false
      else if c = '/' && Text.first rest = '*' then
        if (blockComment (rest.drop 1)).2 then
          (read acrossLines (rest.drop (1 + (blockComment (rest.drop 1)).1))).after
            (2 + (blockComment (rest.drop 1)).1) false
        else { length := 2 + (blockComment (rest.drop 1)).1, openComment := true }
      else
        {} := by
  rw [read]
  generalize blockComment (rest.drop 1) = block
  obtain ⟨n, closed⟩ := block
  cases closed with
  | true => rfl
  | false => rfl

/-- The ways in which a gap that goes on across lines begins. -/
theorem read_cases (text : Text) :
    (starts text = false ∧ read true text = {}) ∨
      (∃ n newline, 0 < n ∧ n ≤ text.length ∧
        read true text = (read true (text.drop n)).after n newline) ∨
      (text ≠ [] ∧ (read true text).length = text.length) := by
  cases text with
  | nil => exact .inl ⟨rfl, read_nil true⟩
  | cons c rest =>
      rw [read_cons]
      split_ifs with lineFeed across blank line block closed
      · exact .inr (.inl ⟨1, true, by omega, by simp, rfl⟩)
      · exact (across rfl).elim
      · exact .inr (.inl ⟨1, false, by omega, by simp, rfl⟩)
      · have inside := Text.lineLength_le rest
        refine .inr (.inl ⟨1 + Text.lineLength rest, false, by omega, ?_, ?_⟩)
        · rw [List.length_cons]
          omega
        · rw [Nat.add_comm, List.drop_succ_cons]
      · have inside := blockComment_le (rest.drop 1)
        have positive := length_pos_of_block block
        rw [List.length_drop] at inside
        refine .inr (.inl ⟨2 + (blockComment (rest.drop 1)).1, false, by omega, ?_, ?_⟩)
        · rw [List.length_cons]
          omega
        · have oneMore : 2 + (blockComment (rest.drop 1)).1 =
              1 + (blockComment (rest.drop 1)).1 + 1 := by omega
          simp only [oneMore, List.drop_succ_cons]
      · have positive := length_pos_of_block block
        have whole := length_of_blockComment (Bool.eq_false_iff.mpr closed)
        rw [List.length_drop] at whole
        refine .inr (.inr ⟨List.cons_ne_nil _ _, ?_⟩)
        simp only [List.length_cons]
        omega
      · refine .inl ⟨?_, rfl⟩
        simp only [starts, Text.first_cons, List.drop_succ_cons, List.drop_zero, lineFeed, blank]
        simp only [Bool.and_eq_true, decide_eq_true_eq, not_and] at line block
        by_cases slash : c = '/'
        · simp [slash, line slash, block slash]
        · simp [slash]

/-- No gap stands where nothing starts one. -/
theorem read_of_not_starts {text : Text} (bare : starts text = false) : read true text = {} := by
  cases text with
  | nil => exact read_nil true
  | cons c rest =>
      simp only [starts, Bool.or_eq_false_iff, Bool.and_eq_false_iff, decide_eq_false_iff_not] at bare
      simp only [Text.first_cons, List.drop_succ_cons, List.drop_zero] at bare
      obtain ⟨⟨lineFeed, blank⟩, comment⟩ := bare
      rw [read_cons, if_neg lineFeed, blank, if_neg Bool.false_ne_true]
      rcases comment with slash | ⟨line, block⟩
      · simp [slash]
      · simp [line, block]

theorem length_read_le (text : Text) : (read true text).length ≤ text.length := by
  induction size : text.length using Nat.strongRecOn generalizing text with
  | ind n ih =>
      subst size
      rcases read_cases text with ⟨-, same⟩ | ⟨n, newline, positive, short, same⟩ | ⟨-, same⟩
      · rw [same]
        exact Nat.zero_le _
      · have later := ih (text.drop n).length (by rw [List.length_drop]; omega) _ rfl
        rw [List.length_drop] at later
        rw [same, after]
        simp only
        omega
      · exact Nat.le_of_eq same

/-- No gap starts where a gap ends. -/
theorem starts_drop_read (text : Text) :
    starts (text.drop (read true text).length) = false := by
  induction size : text.length using Nat.strongRecOn generalizing text with
  | ind n ih =>
      subst size
      rcases read_cases text with ⟨bare, same⟩ | ⟨n, newline, positive, short, same⟩ | ⟨-, same⟩
      · rw [same]
        exact bare
      · have later := ih (text.drop n).length (by rw [List.length_drop]; omega) _ rfl
        rw [List.drop_drop] at later
        rw [same]
        exact later
      · rw [same, List.drop_length]
        rfl

/-- A text without a gap at its start starts none. -/
theorem not_starts_of_length {text : Text} (empty : (read true text).length = 0) :
    starts text = false := by
  have bare := starts_drop_read text
  rw [empty, List.drop_zero] at bare
  exact bare

/-- A blank before a text lengthens its gap. -/
theorem read_blank (rest : Text) : read true (' ' :: rest) = (read true rest).after 1 false := by
  rw [read_cons]
  rfl

end Gap

end CPreprocessor
