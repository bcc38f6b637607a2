/-
# The phases of normalization

Translation is described phase by phase: first trigraphs are replaced, then line ends of every
kind become line feeds, at last lines that end in a backslash are joined to the next ones. Each
phase reads its whole text once, from the left, and does not look at what it has written.
Normalization does all three in one scan with a look at one logical character ahead, and comes
to the same text.
-/
import CPreprocessor.Proofs.Source.Plain

namespace CPreprocessor.Normalization

/-- The first phase: three bytes that are a trigraph become the character it stands for. -/
def replaceTrigraphs : Text → Text
  | '?' :: '?' :: last :: rest =>
    match trigraph last with
    | some replaced => replaced :: replaceTrigraphs rest
    | none => '?' :: replaceTrigraphs ('?' :: last :: rest)
  | c :: rest => c :: replaceTrigraphs rest
  | [] => []

/-- The second phase: a carriage return with the line feed after it, or alone, becomes a line
feed. -/
def unifyLineEnds : Text → Text
  | '\r' :: '\n' :: rest => '\n' :: unifyLineEnds rest
  | '\r' :: rest => '\n' :: unifyLineEnds rest
  | c :: rest => c :: unifyLineEnds rest
  | [] => []

/-- The third phase: a backslash directly before a line feed is deleted with it. What comes to stand
before a line feed in this way is not looked at again. -/
def joinLines : Text → Text
  | '\\' :: '\n' :: rest => joinLines rest
  | c :: rest => c :: joinLines rest
  | [] => []

/-- The text after the first two phases, the first of which may be left out. -/
def logicalText (trigraphs : Bool) (text : Text) : Text :=
  unifyLineEnds (if trigraphs then replaceTrigraphs text else text)

/-! ## Equations of the phases -/

theorem replaceTrigraphs_of_trigraph {last replaced : Char} (known : trigraph last = some replaced)
    (rest : Text) :
    replaceTrigraphs ('?' :: '?' :: last :: rest) = replaced :: replaceTrigraphs rest := by
  rw [replaceTrigraphs, known]

/-- A byte that no trigraph starts with is left as it is. -/
theorem replaceTrigraphs_cons {c : Char} {rest : Text}
    (noTrigraph : ∀ last more, c = '?' → rest = '?' :: last :: more → trigraph last = none) :
    replaceTrigraphs (c :: rest) = c :: replaceTrigraphs rest := by
  rw [replaceTrigraphs.eq_def]
  split
  · rename_i last more same
    cases same
    rw [noTrigraph last more rfl rfl]
  · rename_i same
    cases same
    rfl
  · rename_i same
    cases same

theorem unifyLineEnds_cons {c : Char} (noReturn : c ≠ '\r') (rest : Text) :
    unifyLineEnds (c :: rest) = c :: unifyLineEnds rest := by
  rw [unifyLineEnds]
  · rintro more rfl
    exact (noReturn rfl).elim
  · exact noReturn

theorem unifyLineEnds_return {rest : Text} (noFeed : rest.head? ≠ some '\n') :
    unifyLineEnds ('\r' :: rest) = '\n' :: unifyLineEnds rest := by
  rw [unifyLineEnds]
  rintro more rfl
  exact noFeed rfl

theorem joinLines_join (rest : Text) : joinLines ('\\' :: '\n' :: rest) = joinLines rest := by
  rw [joinLines]

theorem joinLines_cons {c : Char} {rest : Text} (noJoin : c = '\\' → rest.head? ≠ some '\n') :
    joinLines (c :: rest) = c :: joinLines rest := by
  rw [joinLines]
  rintro more rfl rfl
  exact noJoin rfl rfl

/-! ## Logical characters -/

/-- A line feed in the text after the first phase was there before. -/
theorem head?_replaceTrigraphs {text : Text} (feed : (replaceTrigraphs text).head? = some '\n') :
    text.head? = some '\n' := by
  unfold replaceTrigraphs at feed
  split at feed
  · rename_i last rest
    split at feed
    · rename_i replaced known
      cases feed
      unfold trigraph at known
      split at known <;> cases known
    · cases feed
  · exact feed
  · cases feed

theorem logicalText_nil (trigraphs : Bool) : logicalText trigraphs [] = [] := by
  cases trigraphs <;> rfl

/-- After two phases a text is its logical characters. -/
theorem logicalText_cons (trigraphs : Bool) (c : Char) (rest : Text) :
    logicalText trigraphs (c :: rest) =
      (logical trigraphs c rest).char ::
        logicalText trigraphs (rest.drop (logical trigraphs c rest).extra) := by
  have spelled := spells_logical trigraphs c rest
  generalize logical trigraphs c rest = head at spelled ⊢
  cases trigraphs with
  | false =>
    cases spelled with
    | trigraph on => cases on
    | returnAndFeed => rfl
    | returnAlone noFeed => exact unifyLineEnds_return noFeed
    | plain noReturn => exact unifyLineEnds_cons noReturn rest
  | true =>
    simp only [logicalText, if_true]
    cases spelled with
    | trigraph on known =>
      rw [replaceTrigraphs_of_trigraph known, unifyLineEnds_cons (trigraph_cases known).1]
      rfl
    | returnAndFeed => rfl
    | returnAlone noFeed =>
      rw [replaceTrigraphs_cons fun _ _ isMark => absurd isMark (by decide),
        unifyLineEnds_return fun feed => noFeed (head?_replaceTrigraphs feed)]
      rfl
    | plain noReturn noTrigraph =>
      rw [replaceTrigraphs_cons (noTrigraph rfl), unifyLineEnds_cons noReturn]
      rfl

/-! ## Line joins -/

/-- No line feed comes after a backslash that joins no lines. -/
theorem head?_of_lineJoin?_eq_none {trigraphs : Bool} {c : Char} {rest : Text}
    (noJoin : lineJoin? trigraphs c rest = none)
    (backslash : (logical trigraphs c rest).char = '\\') :
    (logicalText trigraphs (rest.drop (logical trigraphs c rest).extra)).head? ≠ some '\n' := by
  simp only [lineJoin?, if_pos backslash] at noJoin
  cases left : rest.drop (logical trigraphs c rest).extra with
  | nil =>
    rw [logicalText_nil]
    exact nofun
  | cons d after =>
    simp only [left] at noJoin
    rw [logicalText_cons, List.head?_cons, ne_eq, Option.some.injEq]
    intro feed
    rw [if_pos feed] at noJoin
    cases noJoin

/-- Joining lines while the logical characters are read is joining them afterwards. -/
theorem characters_eq_joinLines (trigraphs : Bool) (place : Position) (text : Text) :
    (characters trigraphs place text).1.map Prod.fst = joinLines (logicalText trigraphs text) := by
  fun_induction characters trigraphs place text with
  | case1 place =>
    rw [logicalText_nil]
    rfl
  | case2 place c rest extra join ih =>
    obtain ⟨backslash, d, after, left, feed, rfl⟩ := lineJoin?_eq_some join
    have dropped :
        rest.drop ((logical trigraphs c rest).extra + 1 + (logical trigraphs d after).extra) =
          after.drop (logical trigraphs d after).extra := by
      rw [Nat.add_assoc, ← List.drop_drop, left, Nat.add_comm, List.drop_succ_cons]
    rw [ih, dropped, logicalText_cons, backslash, left, logicalText_cons, feed, joinLines_join]
  | case3 place c rest noJoin head located finish later ih =>
    rw [later] at ih
    rw [List.map_cons, ih, logicalText_cons,
      joinLines_cons fun backslash => head?_of_lineJoin?_eq_none noJoin backslash]

end CPreprocessor.Normalization

namespace CPreprocessor.Source

open Normalization

/-- The text of a source is what the three phases make of the decoded bytes, one phase after the
other, and no carriage return is left in it. -/
theorem text_ofDecoded_eq_phases (trigraphs : Bool) (decoded : Text) :
    (ofDecoded trigraphs decoded).text =
        joinLines (unifyLineEnds (if trigraphs then replaceTrigraphs decoded else decoded)) ∧
      '\r' ∉ (ofDecoded trigraphs decoded).text :=
  ⟨characters_eq_joinLines trigraphs {} decoded,
    fun present => (mem_characters _ present).1 rfl⟩

/-- A trigraph can be the backslash before a line end, and what it leaves is not joined again. -/
example :
    joinLines (unifyLineEnds (replaceTrigraphs "\\???/\r\n\nb".toList)) = "\\?\nb".toList := by
  decide

end CPreprocessor.Source
