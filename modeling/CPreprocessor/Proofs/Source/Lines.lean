/-
# Sources made of whole lines

A text that ends at the end of a physical line can be normalized without what follows it:
no trigraph, no line join and no pair of a carriage return and a line feed reaches over
the end of a line. So the logical characters of a source are those of its pieces, with
places that depend on the pieces before only through the line and the column where
these end.
-/
import Mathlib.Data.List.Basic
import CPreprocessor.Proofs.Source.Plain

namespace CPreprocessor

/-- A text is empty, or its last byte, seen with what follows the text, ends a physical line. -/
def Text.IsLines (text rest : Text) : Prop :=
  ∀ last ∈ text.getLast?, Position.endsLine last rest = true

instance (text rest : Text) : Decidable (text.IsLines rest) :=
  decidable_of_iff (text.getLast?.all fun last => Position.endsLine last rest) (Option.all_eq_true _ _)

namespace Text.IsLines

variable {text rest : Text}

theorem of_cons {c d : Char} {more : Text} (lines : IsLines (c :: d :: more) rest) :
    IsLines (d :: more) rest := by
  rwa [IsLines, List.getLast?_cons_cons] at lines

theorem drop (lines : text.IsLines rest) (n : Nat) : IsLines (text.drop n) rest := by
  intro last isLast
  rw [List.getLast?_drop] at isLast
  split at isLast
  · cases isLast
  · exact lines last isLast

theorem append {first second : Text} (before : first.IsLines (second ++ rest))
    (lines : second.IsLines rest) : IsLines (first ++ second) rest := by
  cases second with
  | nil => rwa [List.append_nil]
  | cons c more =>
    intro last isLast
    rw [List.getLast?_append_of_ne_nil first (List.cons_ne_nil c more)] at isLast
    exact lines last isLast

end Text.IsLines

namespace Position

/-- A line end is a line feed or a carriage return. -/
theorem cases_of_endsLine {c : Char} {rest : Text} (ends : endsLine c rest = true) :
    c = '\n' ∨ c = '\r' ∧ rest.head? ≠ some '\n' := by
  simpa only [endsLine, Bool.or_eq_true, Bool.and_eq_true, decide_eq_true_eq] using ends

end Position

theorem Text.IsLines.of_append {text more rest : Text} (lines : text.IsLines (more ++ rest)) :
    text.IsLines more := by
  intro last isLast
  cases more with
  | cons c more => exact lines last isLast
  | nil => obtain rfl | ⟨rfl, -⟩ := Position.cases_of_endsLine (lines last isLast) <;> rfl

namespace Position

/-- Whether a byte of whole lines ends a line is seen in them. -/
theorem endsLine_append {c : Char} {more rest : Text} (lines : Text.IsLines (c :: more) rest) :
    endsLine c (more ++ rest) = endsLine c more := by
  cases more with
  | nil =>
    have ends := lines c rfl
    rw [List.nil_append, ends]
    obtain rfl | ⟨rfl, -⟩ := cases_of_endsLine ends <;> rfl
  | cons d more => rfl

theorem advance_append {text rest : Text} (lines : text.IsLines rest) {n : Nat}
    (inside : n ≤ text.length) (place : Position) :
    place.advance n (text ++ rest) = place.advance n text := by
  induction text generalizing n place with
  | nil =>
    rw [List.length_nil, Nat.le_zero] at inside
    subst inside
    simp only [advance]
  | cons c more ih =>
    cases n with
    | zero => simp only [advance]
    | succ n =>
      rw [List.length_cons, Nat.add_le_add_iff_right] at inside
      have later := ih (lines.drop 1) inside
      simp only [List.cons_append, advance, endsLine_append lines, later]

theorem advance_add (place : Position) (n m : Nat) (text : Text) :
    place.advance (n + m) text = (place.advance n text).advance m (text.drop n) := by
  induction text generalizing n place with
  | nil => cases n <;> cases m <;> simp only [List.drop_nil, advance]
  | cons c rest ih =>
    cases n with
    | zero => simp only [Nat.zero_add, List.drop_zero, advance]
    | succ n =>
      rw [Nat.succ_add, List.drop_succ_cons]
      simp only [advance]
      split <;> exact ih _ _

/-- The line of a place and its column. -/
def spot (place : Position) : Nat × Nat :=
  (place.line, place.column)

theorem spot_reported {place place' : Position} (same : place.spot = place'.spot) :
    place.reported.spot = place'.reported.spot := by
  rw [spot, spot, Prod.mk.injEq] at same
  simp only [spot, reported, same.1, same.2]

/-- Where on its line a place comes to be depends on where on its line it was. -/
theorem spot_advance {place place' : Position} (same : place.spot = place'.spot) (n : Nat)
    (text : Text) : (place.advance n text).spot = (place'.advance n text).spot := by
  induction text generalizing n place place' with
  | nil => cases n <;> simpa only [advance] using same
  | cons c rest ih =>
    rw [spot, spot, Prod.mk.injEq] at same
    cases n with
    | zero => simpa only [advance, spot, Prod.mk.injEq] using same
    | succ n =>
      simp only [advance]
      split
      · exact ih (by simp only [spot, same.1]) n
      · exact ih (by simp only [spot, same.1, same.2]) n

/-- The number of lines that are passed does not depend on the place. -/
theorem line_advance (place place' : Position) (n : Nat) (text : Text) :
    (place.advance n text).line + place'.line = (place'.advance n text).line + place.line := by
  induction text generalizing n place place' with
  | nil => cases n <;> simp only [advance, Nat.add_comm]
  | cons c rest ih =>
    cases n with
    | zero => simp only [advance, Nat.add_comm]
    | succ n =>
      simp only [advance]
      split
      · have later := ih ⟨place.line + 1, 0, place.offset + 1⟩
          ⟨place'.line + 1, 0, place'.offset + 1⟩ n
        simp only at later
        omega
      · exact ih ⟨place.line, place.column + 1, place.offset + 1⟩
          ⟨place'.line, place'.column + 1, place'.offset + 1⟩ n

/-- Whole lines end where a line starts. -/
theorem column_advance {text rest : Text} (lines : text.IsLines rest) (nonempty : text ≠ [])
    (place : Position) : (place.advance text.length text).column = 0 := by
  induction text generalizing place with
  | nil => exact absurd rfl nonempty
  | cons c more ih =>
    cases more with
    | nil =>
      have ends : endsLine c [] = true := (endsLine_append lines).symm.trans (lines c rfl)
      simp only [List.length_singleton, advance, ends, if_true]
    | cons d more =>
      simp only [List.length_cons, advance]
      have later (place : Position) := ih lines.of_cons (List.cons_ne_nil _ _) place
      simp only [List.length_cons, advance] at later
      split
      · exact later ⟨place.line + 1, 0, place.offset + 1⟩
      · exact later ⟨place.line, place.column + 1, place.offset + 1⟩

end Position

namespace Normalization

variable {trigraphs : Bool} {c : Char} {more rest : Text}

/-- A logical character is one byte, or a line feed, or three bytes of a trigraph. -/
theorem extra_logical_cases (trigraphs : Bool) (c : Char) (rest : Text) :
    (logical trigraphs c rest).extra = 0 ∨ (logical trigraphs c rest).char = '\n' ∨
      ∃ last after, rest = '?' :: last :: after ∧ (logical trigraphs c rest).extra = 2 ∧
        trigraph last = some (logical trigraphs c rest).char := by
  have spelled := spells_logical trigraphs c rest
  generalize logical trigraphs c rest = head at spelled ⊢
  cases spelled with
  | trigraph on known => exact .inr (.inr ⟨_, _, rfl, rfl, known⟩)
  | returnAndFeed => exact .inr (.inl rfl)
  | returnAlone => exact .inl rfl
  | plain => exact .inl rfl

theorem extra_logical_le (trigraphs : Bool) (c : Char) (rest : Text) :
    (logical trigraphs c rest).extra ≤ rest.length := by
  have spelled := spells_logical trigraphs c rest
  generalize logical trigraphs c rest = head at spelled ⊢
  cases spelled <;> simp

theorem lineJoin?_le {extra : Nat} (join : lineJoin? trigraphs c rest = some extra) :
    extra ≤ rest.length := by
  obtain ⟨-, d, after, left, -, rfl⟩ := lineJoin?_eq_some join
  have inside := extra_logical_le trigraphs d after
  have length := congrArg List.length left
  rw [List.length_drop, List.length_cons] at length
  omega

/-- A logical character of whole lines is seen in them. -/
theorem logical_append (lines : Text.IsLines (c :: more) rest) :
    logical trigraphs c (more ++ rest) = logical trigraphs c more := by
  cases more with
  | nil =>
    obtain rfl | ⟨rfl, noFeed⟩ := Position.cases_of_endsLine (lines c rfl)
    · rfl
    · cases rest with
      | nil => rfl
      | cons d rest =>
        have other : d ≠ '\n' := fun same => noFeed (congrArg some same)
        simp only [List.nil_append, logical]
        split
        · rename_i same _
          exact absurd same (by decide)
        · rename_i same
          exact absurd (List.cons.inj same).1 other
        · rfl
        · rename_i last _ _
          exact absurd rfl last
  | cons d more =>
    cases more with
    | cons e more =>
      unfold logical
      split <;> split <;> simp_all
    | nil =>
      have other : d ≠ '?' := by
        rintro rfl
        obtain same | ⟨same, -⟩ := Position.cases_of_endsLine (lines '?' rfl)
        · exact absurd same (by decide)
        · exact absurd same (by decide)
      unfold logical
      split <;> split <;> simp_all

/-- A line does not end with a backslash or what stands for one. -/
theorem drop_logical_ne_nil (lines : Text.IsLines (c :: more) rest)
    (backslash : (logical trigraphs c more).char = '\\') :
    more.drop (logical trigraphs c more).extra ≠ [] := by
  intro consumed
  cases more with
  | nil =>
    obtain rfl | ⟨rfl, -⟩ := Position.cases_of_endsLine (lines c rfl) <;>
      exact absurd backslash (by cases trigraphs <;> decide)
  | cons d more =>
    obtain single | feed | ⟨last, after, rest', double, known⟩ :=
      extra_logical_cases trigraphs c (d :: more)
    · rw [single] at consumed
      cases consumed
    · rw [feed] at backslash
      exact absurd backslash (by decide)
    · rw [double, rest', List.drop_succ_cons, List.drop_succ_cons, List.drop_zero] at consumed
      subst consumed
      rw [rest'] at lines
      rw [backslash] at known
      obtain rfl | ⟨rfl, -⟩ := Position.cases_of_endsLine (lines last rfl) <;> cases known

/-- No line is joined to what follows whole lines. -/
theorem lineJoin?_append (lines : Text.IsLines (c :: more) rest) :
    lineJoin? trigraphs c (more ++ rest) = lineJoin? trigraphs c more := by
  have inside := extra_logical_le trigraphs c more
  simp only [lineJoin?, logical_append lines]
  split
  · rename_i backslash
    rw [List.drop_append_of_le_length inside]
    cases left : more.drop (logical trigraphs c more).extra with
    | cons d after =>
      have later := lines.drop ((logical trigraphs c more).extra + 1)
      rw [List.drop_succ_cons, left] at later
      simp only [List.cons_append, logical_append later]
    | nil => exact absurd left (drop_logical_ne_nil lines backslash)
  · rfl

/-- Whole lines are normalized without what follows them. -/
theorem characters_append {text : Text} (lines : text.IsLines rest) (place : Position) :
    characters trigraphs place (text ++ rest) =
      ((characters trigraphs place text).1
          ++ (characters trigraphs (characters trigraphs place text).2 rest).1,
        (characters trigraphs (characters trigraphs place text).2 rest).2) := by
  induction size : text.length using Nat.strongRecOn generalizing text place with
  | ind n ih =>
    cases text with
    | nil => rw [characters_nil, List.nil_append, List.nil_append]
    | cons c more =>
      rw [List.length_cons] at size
      have later {n : Nat} (inside : n ≤ more.length) (place : Position) :=
        ih (more.drop n).length (by rw [List.length_drop]; omega)
          (show Text.IsLines (more.drop n) rest from lines.drop (n + 1)) place rfl
      have joins : lineJoin? trigraphs c (more ++ rest) = lineJoin? trigraphs c more :=
        lineJoin?_append lines
      rw [List.cons_append]
      cases join : lineJoin? trigraphs c more with
      | some extra =>
        have inside := lineJoin?_le join
        rw [characters_of_join (joins.trans join), characters_of_join join,
          List.drop_append_of_le_length inside, ← List.cons_append,
          Position.advance_append lines (by rw [List.length_cons]; omega)]
        exact later inside _
      | none =>
        have inside := extra_logical_le trigraphs c more
        have logicals : logical trigraphs c (more ++ rest) = logical trigraphs c more :=
          logical_append lines
        rw [characters, characters, joins, join]
        simp only [logicals]
        rw [List.drop_append_of_le_length inside, ← List.cons_append,
          Position.advance_append lines (by rw [List.length_cons]; omega), later inside]
        rfl

/-- The text ends at the place after all its bytes. -/
theorem finish_characters (trigraphs : Bool) (place : Position) (text : Text) :
    (characters trigraphs place text).2 = place.advance text.length text := by
  induction size : text.length using Nat.strongRecOn generalizing text place with
  | ind n ih =>
    cases text with
    | nil =>
      rw [characters_nil]
      cases n <;> rfl
    | cons c more =>
      rw [List.length_cons] at size
      have later {n : Nat} (inside : n ≤ more.length) (place : Position) :=
        ih (more.drop n).length (by rw [List.length_drop]; omega) place (more.drop n) rfl
      have passed {n : Nat} (inside : n ≤ more.length) :
          place.advance (more.length + 1) (c :: more)
            = (place.advance (n + 1) (c :: more)).advance (more.drop n).length (more.drop n) := by
        rw [List.length_drop, ← List.drop_succ_cons (a := c), ← Position.advance_add]
        congr 1
        omega
      cases join : lineJoin? trigraphs c more with
      | some extra =>
        have inside := lineJoin?_le join
        rw [characters_of_join join, later inside, ← size, passed inside]
      | none =>
        have inside := extra_logical_le trigraphs c more
        rw [characters, join]
        simp only []
        rw [later inside, ← size, passed inside]

/-- Which characters a text has does not depend on where it starts, and what places show of where they
stand depends on what it shows of the start. -/
theorem characters_congr (trigraphs : Bool) {α : Type*} (shows : Position → α)
    (kept : ∀ {place place' : Position}, shows place = shows place' → ∀ n text,
      shows (place.advance n text) = shows (place'.advance n text))
    {place place' : Position} (same : shows place = shows place') (text : Text) :
    (characters trigraphs place text).1.map (fun located => (located.1, shows located.2))
      = (characters trigraphs place' text).1.map fun located => (located.1, shows located.2) := by
  induction size : text.length using Nat.strongRecOn generalizing text place place' with
  | ind n ih =>
    cases text with
    | nil => rw [characters_nil, characters_nil]
    | cons c more =>
      rw [List.length_cons] at size
      have later (n : Nat) :=
        ih (more.drop n).length (by rw [List.length_drop]; omega) (kept same (n + 1) (c :: more))
          (more.drop n) rfl
      cases join : lineJoin? trigraphs c more with
      | some extra =>
        rw [characters_of_join join, characters_of_join join]
        exact later extra
      | none =>
        rw [characters_of_not_join join, characters_of_not_join join, List.map_cons, List.map_cons,
          later, same]

end Normalization

namespace Source

open Normalization

variable {trigraphs : Bool} {first first' rest : Text}

/-- The characters of a text do not depend on where it starts. -/
theorem text_characters (trigraphs : Bool) (place : Position) (text : Text) :
    (characters trigraphs place text).1.map Prod.fst = (ofDecoded trigraphs text).text := by
  have same := congrArg (List.map Prod.fst)
    (@characters_congr trigraphs Unit (fun _ => ()) (fun _ _ _ => rfl) place {} rfl text)
  rwa [List.map_map, List.map_map] at same

theorem ofDecoded_nil (trigraphs : Bool) : (ofDecoded trigraphs []).text = [] := by
  simp only [ofDecoded, Normalization.characters_nil, List.map_nil]

theorem text_ofDecoded_append (lines : first.IsLines rest) :
    (ofDecoded trigraphs (first ++ rest)).text
      = (ofDecoded trigraphs first).text ++ (ofDecoded trigraphs rest).text := by
  rw [← text_characters trigraphs (characters trigraphs {} first).2 rest]
  simp only [ofDecoded, characters_append lines, List.map_append]

/-- Where on their lines the characters of a text stand depends on where on its line the part before
it ends. -/
theorem spot_ofDecoded_append (lines : first.IsLines rest) (lines' : first'.IsLines rest)
    (same : (ofDecoded trigraphs first).finish.spot = (ofDecoded trigraphs first').finish.spot)
    (n : Nat) :
    ((ofDecoded trigraphs (first ++ rest)).place
        ((ofDecoded trigraphs first).text.length + n)).spot
      = ((ofDecoded trigraphs (first' ++ rest)).place
        ((ofDecoded trigraphs first').text.length + n)).spot := by
  have finish (text : Text) : (ofDecoded trigraphs text).finish = (characters trigraphs {} text).2 := rfl
  rw [finish, finish] at same
  have after {text : Text} (lines : text.IsLines rest) :
      (ofDecoded trigraphs (text ++ rest)).place ((ofDecoded trigraphs text).text.length + n)
        = ((characters trigraphs (characters trigraphs {} text).2 rest).1.map Prod.snd)[n]?.getD
          (characters trigraphs (characters trigraphs {} text).2 rest).2 := by
    have length : (ofDecoded trigraphs text).text.length
        = ((characters trigraphs {} text).1.map Prod.snd).length := by
      simp only [ofDecoded, List.length_map]
    simp only [place, length]
    simp only [ofDecoded, characters_append lines, List.map_append, List.getElem?_toArray]
    rw [List.getElem?_append_right (Nat.le_add_right _ _), Nat.add_sub_cancel_left]
  rw [after lines, after lines']
  have places := congrArg (fun located => (located.map Prod.snd)[n]?)
    (characters_congr trigraphs Position.spot Position.spot_advance same rest)
  have finishes := Position.spot_advance same rest.length rest
  rw [← finish_characters trigraphs, ← finish_characters trigraphs]
    at finishes
  simp only [List.map_map, List.getElem?_map] at places ⊢
  generalize (characters trigraphs (characters trigraphs {} first).2 rest).1[n]? = one at places ⊢
  generalize (characters trigraphs (characters trigraphs {} first').2 rest).1[n]? = two at places ⊢
  cases one with
  | none =>
    cases two with
    | none => exact finishes
    | some here => cases places
  | some here =>
    cases two with
    | none => cases places
    | some there => exact Option.some.inj places

/-- Lines of the same number can stand for each other without moving what follows them. -/
theorem spot_finish_append {before lines lines' rest : Text}
    (starts : before.IsLines (lines ++ rest)) (starts' : before.IsLines (lines' ++ rest))
    (nonempty : before ≠ []) (ends : lines.IsLines rest) (ends' : lines'.IsLines rest)
    (same : (ofDecoded trigraphs lines).finish.line = (ofDecoded trigraphs lines').finish.line) :
    (ofDecoded trigraphs (before ++ lines)).finish.spot
      = (ofDecoded trigraphs (before ++ lines')).finish.spot := by
  have finish (text : Text) :
      (ofDecoded trigraphs text).finish = ({} : Position).advance text.length text :=
    finish_characters trigraphs {} text
  have line {lines : Text} (starts : before.IsLines (lines ++ rest)) :
      (ofDecoded trigraphs (before ++ lines)).finish.line + 1
        = (ofDecoded trigraphs lines).finish.line
          + (({} : Position).advance before.length before).line := by
    rw [finish, finish, List.length_append, Position.advance_add,
      Position.advance_append starts.of_append (Nat.le_refl _), List.drop_left]
    exact Position.line_advance _ {} lines.length lines
  have column {lines : Text} (starts : before.IsLines (lines ++ rest)) (ends : lines.IsLines rest) :
      (ofDecoded trigraphs (before ++ lines)).finish.column = 0 := by
    rw [finish]
    exact Position.column_advance (starts.append ends) (by simp [nonempty]) {}
  have one := line starts
  have two := line starts'
  rw [Position.spot, Position.spot, column starts ends, column starts' ends']
  congr 1
  omega

end Source

end CPreprocessor
