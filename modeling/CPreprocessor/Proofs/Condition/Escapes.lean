/-
# Units of character literals

A character literal is scanned twice: by the lexer, which looks for its end, and in a condition,
where its sequences become units. Both take the same sequences, with one exception: in a
condition a universal character name takes all hexadecimal digits that follow, and not only the four
or eight that belong to it (`units_texts`). Without such digits every sequence becomes the unit
that it stands for (`grouped_of_isChain`), and only then (`isChain_of_length_grouped`).
-/
import Mathlib.Data.Bool.AllAny
import Mathlib.Data.List.Chain
import CPreprocessor.Proofs.Condition.Literal
import CPreprocessor.Proofs.Lexing.Requests
import CPreprocessor.Proofs.Lexing.Sequences

namespace CPreprocessor

namespace Sequence

/-- What a sequence stands for. -/
def value : Sequence → Nat
  | character c => c.toNat
  | simple c => (simpleEscapes.lookup c).getD 0
  | octal digits => Radix.octal.number digits
  | hexadecimal digits => Radix.hexadecimal.number digits
  | universal _ digits => Radix.hexadecimal.number digits

/-- The unit of a sequence: what it stands for, in 32 bits. -/
def unit (s : Sequence) : Nat :=
  s.value % 2 ^ 32

/-- A character that is a hexadecimal digit. -/
def isDigit : Sequence → Bool
  | character c => Text.isHexDigit c
  | _ => false

/-- A universal character name. -/
def isUniversal : Sequence → Bool
  | universal _ _ => true
  | _ => false

/-- The digits after a universal character name belong to it. -/
def grouped : List Sequence → List Sequence
  | [] => []
  | universal mark digits :: rest =>
    universal mark (digits ++ texts (rest.takeWhile isDigit)) :: grouped (rest.dropWhile isDigit)
  | s :: rest => s :: grouped rest
  termination_by sequences => sequences.length
  decreasing_by
    · have := (List.dropWhile_sublist (l := rest) isDigit).length_le
      simp only [List.length_cons]
      omega
    · simp

/-- A universal character name stands directly before a hexadecimal digit. -/
def RunsInto (first second : Sequence) : Prop :=
  first.isUniversal = true ∧ second.isDigit = true

instance (first second : Sequence) : Decidable (RunsInto first second) :=
  inferInstanceAs (Decidable (_ ∧ _))

end Sequence

namespace Text

theorem mem_octalDigits {c : Char} (isDigit : isOctalDigit c = true) : c ∈ "01234567".toList := by
  have ascii : ∀ n < 128, isOctalDigit (Char.ofNat n) = true → Char.ofNat n ∈ "01234567".toList := by
    decide
  have small : c.toNat < 128 := by
    simp only [isOctalDigit, Bool.and_eq_true, decide_eq_true_eq, Char.le_def,
      UInt32.le_iff_toNat_le] at isDigit
    have bound : '7'.val.toNat = 55 := by decide
    have same : c.toNat = c.val.toNat := rfl
    omega
  have bounded := ascii c.toNat small
  rw [Char.ofNat_toNat] at bounded
  exact bounded isDigit

end Text

namespace CharacterLiteral

open Sequence

/-- Octal digits stand for a number that has no more octal digits. -/
theorem number_lt {digits : Text} (areDigits : ∀ d ∈ digits, Text.isOctalDigit d = true) :
    Radix.octal.number digits < 8 ^ digits.length := by
  have listed : ∀ d ∈ "01234567".toList, Text.digitValue d < 8 :=
    List.all_iff_forall_prop.mp (by decide)
  rw [Radix.number, ← List.length_reverse, ← List.length_map Text.digitValue]
  refine Nat.ofDigits_lt_base_pow_length (by decide) fun value there => ?_
  obtain ⟨d, present, rfl⟩ := List.mem_map.mp there
  exact listed d (Text.mem_octalDigits (areDigits d (List.mem_reverse.mp present)))

/-! ## Escape sequences -/

theorem escape_simple {c : Char} (known : c ∈ simpleEscapes.map Prod.fst) (rest : Text) :
    escape (c :: rest) = ((simple c).unit, 1) := by
  simp only [simpleEscapes, List.map_cons, List.map_nil, List.mem_cons, List.not_mem_nil,
    or_false] at known
  rcases known with rfl | rfl | rfl | rfl | rfl | rfl | rfl | rfl | rfl | rfl | rfl <;> rfl

theorem escape_octal {digits rest : Text} (grammatical : (octal digits).IsGrammatical '\'')
    (stops : (octal digits).StopsBefore rest) :
    escape (digits ++ rest) = ((octal digits).unit, digits.length) := by
  obtain ⟨nonempty, short, areDigits⟩ := grammatical
  cases digits with
  | nil => cases nonempty
  | cons d digits =>
    obtain ⟨isDigit, areDigits'⟩ := List.forall_mem_cons.mp areDigits
    have plain : simpleEscape? d = none ∧ ¬(d = 'x' ∨ d = 'u' ∨ d = 'U') := by
      have listed : ∀ d ∈ "01234567".toList,
          simpleEscape? d = none ∧ ¬(d = 'x' ∨ d = 'u' ∨ d = 'U') :=
        List.all_iff_forall_prop.mp (by decide)
      exact listed d (Text.mem_octalDigits isDigit)
    have taken : ((digits ++ rest).take 2).takeWhile Text.isOctalDigit = digits :=
      Text.takeWhile_take_append areDigits' (Nat.le_of_succ_le_succ short)
        (stops.imp_left fun full => by simpa using full)
    have small : Radix.octal.number (d :: digits) < 2 ^ 32 :=
      Nat.lt_of_lt_of_le (number_lt areDigits) (Nat.pow_le_pow_right (by decide) short |>.trans (by decide))
    rw [List.cons_append, escape, plain.1]
    simp only [Bool.or_eq_true, decide_eq_true_eq, or_assoc, if_neg plain.2, isDigit, if_true, taken]
    rw [unit, Sequence.value, Nat.mod_eq_of_lt small, ← number_eq]
    rfl

/-- A mark takes all hexadecimal digits that follow. -/
theorem escape_hexadecimal {mark : Char} (known : mark ∈ ['x', 'u', 'U']) {digits : Text}
    (areDigits : ∀ d ∈ digits, Text.isHexDigit d = true) (rest : Text) :
    escape (mark :: (digits ++ rest)) =
      ((hexadecimal (digits ++ rest.takeWhile Text.isHexDigit)).unit,
        1 + (digits ++ rest.takeWhile Text.isHexDigit).length) := by
  have noSimple : ∀ c ∈ ['x', 'u', 'U'], simpleEscape? c = none :=
    List.all_iff_forall_prop.mp (by decide)
  have isMark : mark = 'x' ∨ mark = 'u' ∨ mark = 'U' := by simpa using known
  rw [escape, noSimple mark known]
  simp only [Bool.or_eq_true, decide_eq_true_eq, or_assoc, if_pos isMark,
    List.takeWhile_append_of_pos areDigits]
  rw [unit, Sequence.value, ← number_eq]
  rfl

/-! ## Rows of sequences -/

theorem takeWhile_texts (sequences : List Sequence) :
    (texts sequences).takeWhile Text.isHexDigit = texts (sequences.takeWhile isDigit) ∧
      (texts sequences).dropWhile Text.isHexDigit = texts (sequences.dropWhile isDigit) := by
  have backslash : Text.isHexDigit '\\' = false := by decide
  induction sequences with
  | nil => exact ⟨rfl, rfl⟩
  | cons s sequences ih =>
    cases s with
    | character c =>
      cases digit : Text.isHexDigit c <;> simp [text, isDigit, digit, ih]
    | simple c => simp [text, isDigit, backslash]
    | octal digits => simp [text, isDigit, backslash]
    | hexadecimal digits => simp [text, isDigit, backslash]
    | universal mark digits => simp [text, isDigit, backslash]

theorem AreScanned.of_append {quote : Char} {first second : List Sequence}
    (scanned : AreScanned quote (first ++ second)) : AreScanned quote second := by
  induction first with
  | nil => exact scanned
  | cons s first ih => exact ih scanned.2.2

/-- An escape sequence becomes one unit. -/
theorem units_backslash {wide : Bool} {inner rest : Text} {unit : Nat}
    (read : escape (inner ++ rest) = (unit, inner.length)) :
    units wide ('\\' :: (inner ++ rest)) = unit :: units wide rest := by
  rw [units, if_pos rfl, read]
  simp

/-- The units of a row of sequences. -/
theorem units_texts {wide : Bool} {sequences : List Sequence}
    (scanned : AreScanned '\'' sequences) (ascii : ∀ c ∈ texts sequences, c.toNat < 128) :
    units wide (texts sequences) = (grouped sequences).map unit := by
  fun_induction grouped sequences with
  | case1 => rw [texts_nil, units, List.map_nil]
  | case2 mark digits rest ih =>
    obtain ⟨⟨known, areDigits⟩, -, scannedRest⟩ := scanned
    have isMark : mark ∈ ['x', 'u', 'U'] := by
      simp only [universalMarks, List.mem_cons, Prod.mk.injEq, List.not_mem_nil, or_false] at known
      obtain ⟨rfl, -⟩ | ⟨rfl, -⟩ := known <;> decide
    have split : texts rest = texts (rest.takeWhile isDigit) ++ texts (rest.dropWhile isDigit) := by
      rw [← texts_append, List.takeWhile_append_dropWhile]
    have read := escape_hexadecimal isMark areDigits (texts rest)
    rw [(takeWhile_texts rest).1, Nat.add_comm, split, ← List.append_assoc, ← List.cons_append] at read
    have cut := (List.takeWhile_append_dropWhile (p := isDigit) (l := rest)).symm
    have later := ih (AreScanned.of_append (cut ▸ scannedRest))
      fun c there => ascii c (by simp [split, there])
    have whole : texts (universal mark digits :: rest) =
        '\\' :: ((mark :: (digits ++ texts (rest.takeWhile isDigit))) ++
          texts (rest.dropWhile isDigit)) := by
      simp [split, text]
    rw [whole, units_backslash read, later, List.map_cons]
    rfl
  | case3 s rest notUniversal ih =>
    obtain ⟨grammatical, stops, scannedRest⟩ := scanned
    rw [List.map_cons, ← ih scannedRest fun c there => ascii c (by simp [there]), texts_cons]
    cases s with
    | character c =>
      have small : c.toNat < 128 := ascii c (by simp [text])
      rw [text, List.singleton_append, units, if_neg grammatical.2.2,
        if_neg (by simp [Nat.not_le.mpr small]), unit, Sequence.value, Nat.mod_eq_of_lt (by omega)]
    | simple c => exact units_backslash (escape_simple grammatical (texts rest))
    | octal digits => exact units_backslash (escape_octal grammatical stops)
    | hexadecimal digits =>
      have read := escape_hexadecimal (by decide : 'x' ∈ ['x', 'u', 'U']) grammatical.2 (texts rest)
      rw [Text.takeWhile_eq_nil stops, List.append_nil, Nat.add_comm, ← List.cons_append] at read
      exact units_backslash read
    | universal mark digits => exact absurd rfl (notUniversal mark digits)

/-! ## Universal character names before digits -/

theorem length_grouped_le (sequences : List Sequence) :
    (grouped sequences).length ≤ sequences.length := by
  fun_induction grouped sequences with
  | case1 => exact Nat.le_refl _
  | case2 mark digits rest ih =>
    have shorter := (List.dropWhile_sublist (l := rest) isDigit).length_le
    simp only [List.length_cons]
    omega
  | case3 s rest notUniversal ih => exact Nat.succ_le_succ ih

theorem isChain_universal {mark : Char} {digits : Text} {rest : List Sequence} :
    (universal mark digits :: rest).IsChain (fun first second => ¬RunsInto first second) ↔
      rest.dropWhile isDigit = rest ∧ rest.IsChain fun first second => ¬RunsInto first second := by
  rw [List.isChain_cons]
  refine and_congr_left fun _ => ?_
  cases rest with
  | nil => simp
  | cons s rest =>
    cases digit : s.isDigit with
    | false => simp [RunsInto, digit]
    | true =>
      have shorter := (List.dropWhile_sublist (l := rest) isDigit).length_le
      refine iff_of_false (by simp [RunsInto, digit, isUniversal]) fun same => ?_
      rw [List.dropWhile_cons_of_pos digit] at same
      have length := congrArg List.length same
      rw [List.length_cons] at length
      omega

/-- Where no universal character name stands before a digit, every sequence is for itself. -/
theorem grouped_of_isChain {sequences : List Sequence}
    (apart : sequences.IsChain fun first second => ¬RunsInto first second) :
    grouped sequences = sequences := by
  fun_induction grouped sequences with
  | case1 => rfl
  | case2 mark digits rest ih =>
    obtain ⟨same, others⟩ := isChain_universal.mp apart
    have nothing : rest.takeWhile isDigit = [] := by
      have whole := List.takeWhile_append_dropWhile (p := isDigit) (l := rest)
      rw [same] at whole
      exact List.append_left_eq_self.mp whole
    rw [ih (same.symm ▸ others), same, nothing, texts_nil, List.append_nil]
  | case3 s rest notUniversal ih => rw [ih (List.isChain_cons.mp apart).2]

/-- Where one does, sequences are lost. -/
theorem isChain_of_length_grouped {sequences : List Sequence}
    (enough : sequences.length ≤ (grouped sequences).length) :
    sequences.IsChain fun first second => ¬RunsInto first second := by
  fun_induction grouped sequences with
  | case1 => exact .nil
  | case2 mark digits rest ih =>
    simp only [List.length_cons, Nat.add_le_add_iff_right] at enough
    have atMost := length_grouped_le (rest.dropWhile isDigit)
    have same := (List.dropWhile_sublist (l := rest) isDigit).eq_of_length_le
      (Nat.le_trans enough atMost)
    rw [same] at ih enough
    exact isChain_universal.mpr ⟨same, ih enough⟩
  | case3 s rest notUniversal ih =>
    refine List.isChain_cons.mpr ⟨fun second _ runs => ?_, ih (Nat.le_of_succ_le_succ enough)⟩
    cases s with
    | universal mark digits => exact notUniversal mark digits rfl
    | _ => cases runs.1

/-! ## Literals -/

/-- The first and the last single quote of a literal are the ones around its sequences. -/
theorem body_of_isCharacterLiteral {lead suffix lexeme : Text} {sequences : List Sequence}
    (literal : IsCharacterLiteral lead sequences suffix lexeme) :
    literalPrefix lexeme = lead ∧ body lexeme = texts sequences := by
  have before : ∀ c ∈ lead, decide (c ≠ '\'') = true := by
    have listed : ∀ lead ∈ characterPrefixes, ∀ c ∈ lead, decide (c ≠ '\'') = true := by
      simp [characterPrefixes]
    exact listed lead literal.lead_mem
  have behind : ∀ c ∈ suffix.reverse, decide (c ≠ '\'') = true := by
    refine fun c there => decide_eq_true fun quote => ?_
    rw [List.mem_reverse, quote] at there
    have isName := (literal.isSuffix (List.ne_nil_of_mem there)).2.2 _ there
    cases isName
  have inner : (suffix.reverse ++ '\'' :: (texts sequences).reverse).dropWhile (· ≠ '\'') =
      '\'' :: (texts sequences).reverse := by
    rw [List.dropWhile_append_of_pos behind, List.dropWhile_cons_of_neg (by simp)]
  rw [literal.text_eq]
  constructor
  · rw [literalPrefix, List.takeWhile_append_of_pos before, List.takeWhile_cons_of_neg (by simp),
      List.append_nil]
  · rw [body, List.dropWhile_append_of_pos before, List.dropWhile_cons_of_neg (by simp)]
    simp only [List.drop_one, List.tail_cons, List.reverse_append, List.reverse_cons,
      List.append_assoc, List.singleton_append, inner, List.reverse_reverse]

end CharacterLiteral

open Sequence in
/-- The units of a character literal that a lexer gives without an error. There is one unit for each
sequence that the lexer has passed over, and it is what the sequence stands for, exactly if no
universal character name stands directly before a hexadecimal digit; otherwise it takes the digits
and there are fewer units. -/
theorem CharacterLiteral.units_of_perform {source : Source} {file : FileRef} {language : Language}
    {keepsTrivia : Bool} {requests : List Lexer.Request} {token : Token}
    (given : token ∈ ((Lexer.ofSource source file language keepsTrivia).perform requests).1)
    (isCharacter : token.kind = .character) (noError : token.error = none)
    (ascii : ∀ c ∈ token.lexeme, c.toNat < 128) :
    ∃ lead sequences suffix, IsCharacterLiteral lead sequences suffix token.lexeme ∧
      (∀ wide,
        units wide (body token.lexeme) = (grouped sequences).map unit ∧
        (units wide (body token.lexeme) = sequences.map unit ↔
          sequences.IsChain fun first second => ¬RunsInto first second)) ∧
      value token = .ok (valueOfUnits lead ((grouped sequences).map unit)) := by
  obtain comment | white | ends | ⟨rest, -, -, -, reads⟩ :=
    (Lexer.isWithin_ofSource source file language keepsTrivia).perform requests token given
  · rw [isCharacter] at comment
    cases comment
  · rw [isCharacter] at white
    cases white
  · rw [isCharacter] at ends
    cases ends
  · rw [isCharacter, noError] at reads
    obtain ⟨lead, sequences, suffix, literal⟩ := Lexeme.exists_isCharacterLiteral reads
    obtain ⟨lead_eq, body_eq⟩ := body_of_isCharacterLiteral literal
    have decoded (wide : Bool) :
        units wide (body token.lexeme) = (grouped sequences).map unit := by
      rw [body_eq]
      exact units_texts literal.areScanned fun c there => ascii c (by
        rw [literal.text_eq]
        simp [there])
    refine ⟨lead, sequences, suffix, literal, fun wide => ⟨decoded wide, fun same => ?_, fun apart => ?_⟩, ?_⟩
    · have length := congrArg List.length ((decoded wide).symm.trans same)
      rw [List.length_map, List.length_map] at length
      exact isChain_of_length_grouped length.ge
    · rw [decoded, grouped_of_isChain apart]
    · rw [value, noError]
      simp only [lead_eq, decoded]

/-- A wide literal with an octal, a universal, a hexadecimal and a simple sequence, each before a
character that it does not take. -/
def mixedLiteral : Token where
  kind := .character
  lexeme := "L'\\1018\\u0041g\\x4ag\\''".toList
  atLineStart := true

open Sequence in
/-- Every sequence of this literal becomes the unit that it stands for. -/
theorem CharacterLiteral.units_of_perform_mixedLiteral :
    ∃ lead sequences suffix, IsCharacterLiteral lead sequences suffix mixedLiteral.lexeme ∧
      (∀ wide,
        units wide (body mixedLiteral.lexeme) = (grouped sequences).map unit ∧
        (units wide (body mixedLiteral.lexeme) = sequences.map unit ↔
          sequences.IsChain fun first second => ¬RunsInto first second)) ∧
      value mixedLiteral = .ok (valueOfUnits lead ((grouped sequences).map unit)) := by
  have given : mixedLiteral ∈ ((Lexer.ofSource (.ofDecoded false mixedLiteral.lexeme) .unknown
      .standard false).perform [.peek, .next]).1 := by
    decide +kernel
  exact units_of_perform given rfl rfl (List.all_iff_forall_prop.mp (by decide))

/-- The digits after the four of a universal character name are taken too. -/
example : CharacterLiteral.units false "\\u0041Bg".toList = [0x41B, 103] := by
  decide +kernel

end CPreprocessor
