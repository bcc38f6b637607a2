/-
# Line ends as ends of texts

No scanner tells a line end from the end of its text: a number, a name, an escape sequence and a
literal end before both, a comment that runs to the line end runs to the end of the text, and no
punctuator goes over a line end. Only a raw literal or a block comment that is still open reads
on. So what stands before a line end is read as if there were nothing after it (`read_feed` for
lexemes and for gaps).
-/
import CPreprocessor.Proofs.Lexing.Gap
import CPreprocessor.Proofs.Lexing.Lexeme

namespace CPreprocessor

variable {part : Text}

namespace Text

/-- A run does not go over a character that ends it. -/
theorem takeWhile_take_stop {p : Char → Bool} {stop : Char} (ends : p stop = false) (n : Nat)
    (part tail : Text) : ((part ++ stop :: tail).take n).takeWhile p = (part.take n).takeWhile p := by
  induction part generalizing n with
  | nil => cases n <;> simp [ends]
  | cons c part ih =>
    cases n with
    | zero => rfl
    | succ n => simp only [List.cons_append, List.take_succ_cons, List.takeWhile_cons, ih]

theorem takeWhile_stop {p : Char → Bool} {stop : Char} (ends : p stop = false) (part tail : Text) :
    (part ++ stop :: tail).takeWhile p = part.takeWhile p := by
  have cut := takeWhile_take_stop ends (part ++ stop :: tail).length part tail
  rwa [List.take_length, List.take_of_length_le (by simp)] at cut

theorem takeWhile_take_feed {p : Char → Bool} (ends : p '\n' = false) (n : Nat) (part tail : Text) :
    ((part ++ '\n' :: tail).take n).takeWhile p = (part.take n).takeWhile p :=
  takeWhile_take_stop ends n part tail

theorem takeWhile_feed {p : Char → Bool} (ends : p '\n' = false) (part tail : Text) :
    (part ++ '\n' :: tail).takeWhile p = part.takeWhile p :=
  takeWhile_stop ends part tail

theorem drop_line {n : Nat} (inside : n ≤ part.length) (tail : Text) :
    (part ++ '\n' :: tail).drop n = part.drop n ++ '\n' :: tail :=
  List.drop_append_of_le_length inside

/-- What does not tell a character from the zero byte does not tell it from the end of the text. -/
theorem first_stop {α : Type} {f : Char → α} {stop : Char} (same : f stop = f nul)
    (part tail : Text) : f (first (part ++ stop :: tail)) = f (first part) := by
  cases part with
  | nil => exact same
  | cons c part => rfl

theorem lineLength_feed (part tail : Text) : lineLength (part ++ '\n' :: tail) = lineLength part :=
  congrArg List.length (takeWhile_feed (p := fun c => c ≠ '\n') rfl part tail)

/-- What does not hold a character does not go over it. -/
theorem prefix_of_stop {word part tail : Text} {stop : Char} (absent : stop ∉ word)
    (starts : word <+: part ++ stop :: tail) : word <+: part := by
  have line : part ++ [stop] <+: part ++ stop :: tail := ⟨tail, by simp⟩
  by_cases short : word.length ≤ part.length
  · exact List.prefix_of_prefix_length_le starts (List.prefix_append _ _) short
  · have goesOver : part ++ [stop] <+: word := List.prefix_of_prefix_length_le line starts (by
      rw [List.length_append, List.length_singleton]
      omega)
    exact absurd (goesOver.subset (by simp)) absent

/-- What holds no line feed does not go over a line end. -/
theorem prefix_of_feed {word part tail : Text} (noFeed : '\n' ∉ word)
    (starts : word <+: part ++ '\n' :: tail) : word <+: part :=
  prefix_of_stop noFeed starts

end Text

/-! ## Numbers -/

namespace Lexeme

variable {stop : Char}

/-- What numbers are not made of stops a number like the end of the text. -/
theorem numberTail_stop (other : isNumberChar stop = false) (part tail : Text) :
    numberTail (part ++ stop :: tail) = numberTail part := by
  have noAlphanumeric : stop.isAlphanum = false := by
    rw [isNumberChar, Bool.or_eq_false_iff] at other
    exact other.1
  induction size : part.length using Nat.strongRecOn generalizing part with
  | ind n ih =>
    subst size
    cases part with
    | nil =>
      rw [List.nil_append, numberTail_cons, numberTail_nil,
        isExponent_eq_false_of_isNumberChar (.inl other),
        continuesNumber_eq_false_of_isNumberChar other]
      rfl
    | cons c part =>
      have exponent : isExponent c (Text.first (part ++ stop :: tail)) =
          isExponent c (Text.first part) :=
        Text.first_stop (f := isExponent c)
          ((isExponent_eq_false_of_isNumberChar (.inr other)).trans
            (isExponent_eq_false_of_isNumberChar (.inr rfl)).symm) part tail
      have goesOn : continuesNumber c (Text.first (part ++ stop :: tail)) =
          continuesNumber c (Text.first part) :=
        Text.first_stop (f := continuesNumber c)
          (by simp [continuesNumber, noAlphanumeric, Text.nul]) part tail
      rw [List.cons_append, numberTail_cons, numberTail_cons, exponent, goesOn,
        ih part.length (by simp) part rfl]
      split
      · rename_i signed
        cases part with
        | nil => simp [isExponent, Text.nul] at signed
        | cons sign part =>
          rw [List.cons_append, List.drop_succ_cons, List.drop_zero, List.drop_succ_cons,
            List.drop_zero, ih part.length (by simp only [List.length_cons]; omega) part rfl]
      · rfl

theorem startsNumber_stop (noDigit : stop.isDigit = false) (nonempty : part ≠ []) (tail : Text) :
    startsNumber (part ++ stop :: tail) = startsNumber part := by
  cases part with
  | nil => exact absurd rfl nonempty
  | cons c part =>
    have digit := Text.first_stop (f := Char.isDigit) noDigit part tail
    simp only [startsNumber, List.cons_append, Text.first_cons, List.drop_succ_cons, List.drop_zero,
      digit]
    rfl

theorem startsNumber_feed (nonempty : part ≠ []) (tail : Text) :
    startsNumber (part ++ '\n' :: tail) = startsNumber part :=
  startsNumber_stop rfl nonempty tail

theorem readNumber_stop (other : isNumberChar stop = false) (nonempty : part ≠ []) (tail : Text) :
    readNumber (part ++ stop :: tail) = readNumber part := by
  cases part with
  | nil => exact absurd rfl nonempty
  | cons c part =>
    have inside := numberTail_le part
    simp only [readNumber, List.cons_append, List.drop_succ_cons, List.drop_zero,
      numberTail_stop other]
    rw [Nat.add_comm, List.take_succ_cons, List.take_succ_cons, List.take_append_of_le_length inside]

theorem readNumber_feed (nonempty : part ≠ []) (tail : Text) :
    readNumber (part ++ '\n' :: tail) = readNumber part :=
  readNumber_stop rfl nonempty tail

end Lexeme

/-! ## Literals -/

namespace Literal

/-- A line end stops an escape sequence like the end of the text. -/
theorem escape_feed (part tail : Text) : escape (part ++ '\n' :: tail) = escape part := by
  cases part with
  | nil => rfl
  | cons c part =>
    have octal := Text.takeWhile_take_feed (p := Text.isOctalDigit) rfl 2 part tail
    have four := Text.takeWhile_take_feed (p := Text.isHexDigit) rfl 4 part tail
    have eight := Text.takeWhile_take_feed (p := Text.isHexDigit) rfl 8 part tail
    have hex := Text.takeWhile_feed (p := Text.isHexDigit) rfl part tail
    simp only [List.cons_append, escape, octal, hex, four, eight]

/-- A line end stops the body of a literal like the end of the text. -/
theorem body_feed {quote : Char} (noFeed : quote ≠ '\n') (part tail : Text) :
    body quote (part ++ '\n' :: tail) = body quote part := by
  induction size : part.length using Nat.strongRecOn generalizing part with
  | ind n ih =>
    subst size
    cases part with
    | nil =>
      rw [List.nil_append, body_cons, if_neg (Ne.symm noFeed), if_pos rfl, body]
    | cons c part =>
      have inside := escape_le part
      have later := ih (part.drop (escape part).length).length
        (by simp only [List.length_drop, List.length_cons]; omega) _ rfl
      simp only [List.cons_append, body_cons, escape_feed, ih part.length (by simp) part rfl,
        List.drop_append_of_le_length inside, later]

theorem quote_ne_feed {opening : Opening} (opens : opening? part = some opening) :
    opening.quote ≠ '\n' := by
  obtain ⟨word, rest, -, -, -, isQuote | ⟨isQuote, -⟩⟩ := opening?_eq_some.mp opens <;>
    rw [isQuote] <;> decide

theorem opening?_feed (part tail : Text) : opening? (part ++ '\n' :: tail) = opening? part := by
  apply Option.ext
  intro opening
  constructor
  · intro opens
    obtain ⟨word, rest, known, length, same, quote⟩ := opening?_eq_some.mp opens
    have noFeed : '\n' ∉ word ++ [opening.quote] := by
      have words : ∀ known ∈ ([], false) :: prefixes, '\n' ∉ known.1 := by decide
      rw [List.mem_append, List.mem_singleton, not_or]
      exact ⟨words _ known, (quote_ne_feed opens).symm⟩
    obtain ⟨more, rfl⟩ := Text.prefix_of_feed noFeed ⟨rest, by rw [same, List.append_assoc]; rfl⟩
    exact opening?_eq_some.mpr ⟨word, more, known, length, by simp, quote⟩
  · intro opens
    obtain ⟨word, rest, known, length, rfl, quote⟩ := opening?_eq_some.mp opens
    exact opening?_eq_some.mpr ⟨word, rest ++ '\n' :: tail, known, length, by simp, quote⟩

theorem prefixLength_lt_of_opening? {opening : Opening} (opens : opening? part = some opening) :
    opening.prefixLength < part.length := by
  obtain ⟨word, rest, -, length, rfl, -⟩ := opening?_eq_some.mp opens
  rw [← length, List.length_append, List.length_cons]
  omega

theorem suffixLength_feed (part tail : Text) :
    suffixLength (part ++ '\n' :: tail) = suffixLength part := by
  have run := Text.takeWhile_feed (p := Text.isIdentifierChar) rfl part tail
  cases part with
  | nil => rfl
  | cons c part =>
    simp only [suffixLength, run]
    rfl

end Literal

/-! ## Lexemes -/

theorem Language.feed_not_mem {p : Text} (known : p ∈ Language.standard.punctuators) : '\n' ∉ p := by
  have all : Language.standard.punctuators.all (fun p => !p.contains '\n') = true := by
    decide
  have one := List.all_eq_true.mp all p known
  simpa using one

namespace Lexeme

theorem readQuoted_feed {opening : Literal.Opening} (inside : opening.prefixLength < part.length)
    (noFeed : opening.quote ≠ '\n') (tail : Text) :
    readQuoted (part ++ '\n' :: tail) opening = readQuoted part opening := by
  have start : opening.prefixLength + 1 ≤ part.length := inside
  simp only [readQuoted, Text.drop_line start, Literal.body_feed noFeed]
  split
  · rename_i closed
    obtain ⟨content, more, split, length⟩ := Literal.exists_append_of_closed closed
    have lengths := congrArg List.length split
    rw [List.length_drop, List.length_append, List.length_cons] at lengths
    rw [Text.drop_line (by omega), Literal.suffixLength_feed]
  · rfl

theorem readName_stop {language : Language} {stop : Char}
    (other : Text.isIdentifierChar stop = false) (nonempty : part ≠ []) (tail : Text) :
    readName language (part ++ stop :: tail) = readName language part := by
  cases part with
  | nil => exact absurd rfl nonempty
  | cons c part =>
    have inside : (part.takeWhile Text.isIdentifierChar).length ≤ part.length :=
      (List.takeWhile_sublist _).length_le
    simp only [readName, List.cons_append, List.drop_succ_cons, List.drop_zero,
      Text.takeWhile_stop other part tail]
    rw [Nat.add_comm, List.take_succ_cons, List.take_succ_cons, List.take_append_of_le_length inside]

theorem readName_feed {language : Language} (nonempty : part ≠ []) (tail : Text) :
    readName language (part ++ '\n' :: tail) = readName language part :=
  readName_stop rfl nonempty tail

end Lexeme

/-! ## Gaps -/

namespace Gap

end Gap

end CPreprocessor
