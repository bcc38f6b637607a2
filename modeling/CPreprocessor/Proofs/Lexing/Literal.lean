/-
# Where a literal ends

A literal that is closed has its end in itself: what follows the closing quote can
only lengthen its suffix. The lemmas here exchange the text after a closed literal
for another one, piece by piece: the opening, the escape sequences, the body, and
the raw text between its delimiters.
-/
import Mathlib.Data.List.TakeWhile
import CPreprocessor.Token.Literal
import CPreprocessor.Proofs.Lexing.Runs

namespace CPreprocessor

namespace Text

/-- A text that is cut behind one of its characters is cut in its first part if the character stands
there. -/
theorem exists_append_of_length_lt {part rest front back : Text} {c : Char}
    (same : part ++ rest = front ++ c :: back) (inside : front.length < part.length) :
    ∃ more, part = front ++ c :: more ∧ back = more ++ rest := by
  obtain ⟨more, cut, -⟩ | ⟨more, cut, left⟩ := List.append_eq_append_iff.mp same
  · rw [cut, List.length_append] at inside
    omega
  · cases more with
    | nil =>
      rw [cut, List.append_nil] at inside
      exact absurd inside (Nat.lt_irrefl _)
    | cons d more =>
      obtain ⟨rfl, rfl⟩ := List.cons.inj left
      exact ⟨more, cut, rfl⟩

/-- A run that ends inside the first part of a text does not depend on the rest of it. -/
theorem takeWhile_take_congr {p : Char → Bool} {part : Text} {c : Char} {rest : Text} {n : Nat}
    (inside : (((part ++ c :: rest).take n).takeWhile p).length ≤ part.length) (other : Text) :
    ((part ++ c :: other).take n).takeWhile p = ((part ++ c :: rest).take n).takeWhile p := by
  induction part generalizing n with
  | nil =>
      cases n with
      | zero => rfl
      | succ n =>
          cases isOne : p c with
          | false => simp [isOne]
          | true => simp [isOne] at inside
  | cons d part ih =>
      cases n with
      | zero => rfl
      | succ n =>
          cases isOne : p d with
          | false => simp [isOne]
          | true =>
              simp only [List.cons_append, List.take_succ_cons, List.takeWhile_cons_of_pos isOne,
                List.length_cons, Nat.add_le_add_iff_right] at inside ⊢
              rw [ih inside]

theorem takeWhile_congr {p : Char → Bool} {part : Text} {c : Char} {rest : Text}
    (inside : ((part ++ c :: rest).takeWhile p).length ≤ part.length) (other : Text) :
    (part ++ c :: other).takeWhile p = (part ++ c :: rest).takeWhile p := by
  induction part with
  | nil =>
      cases isOne : p c with
      | false => simp [isOne]
      | true => simp [isOne] at inside
  | cons d part ih =>
      cases isOne : p d with
      | false => simp [isOne]
      | true =>
          simp only [List.cons_append, List.takeWhile_cons_of_pos isOne, List.length_cons,
            Nat.add_le_add_iff_right] at inside ⊢
          rw [ih inside]

/-- Where a needle is found, it stands. -/
theorem exists_append_of_find? {needle text : Text} {n : Nat} (found : find? needle text = some n) :
    ∃ before after, text = before ++ (needle ++ after) ∧ before.length = n := by
  induction text generalizing n with
  | nil =>
      simp only [find?, Option.ite_none_right_eq_some, Option.some.injEq] at found
      exact ⟨[], [], by simp [found.1], found.2⟩
  | cons c text ih =>
      rw [find?] at found
      cases here : needle.isPrefixOf (c :: text) with
      | true =>
          rw [here, if_pos rfl, Option.some.injEq] at found
          obtain ⟨after, same⟩ := List.isPrefixOf_iff_prefix.mp here
          exact ⟨[], after, same.symm, found⟩
      | false =>
          rw [here, if_neg (by decide), Option.map_eq_some_iff] at found
          obtain ⟨m, later, rfl⟩ := found
          obtain ⟨before, after, rfl, rfl⟩ := ih later
          exact ⟨c :: before, after, rfl, rfl⟩

/-- The first place of a needle does not depend on what follows it. -/
theorem find?_append {needle before after : Text}
    (found : find? needle (before ++ (needle ++ after)) = some before.length) (other : Text) :
    find? needle (before ++ (needle ++ other)) = some before.length := by
  induction before with
  | nil =>
      have here : needle.isPrefixOf (needle ++ other) = true :=
        List.isPrefixOf_iff_prefix.mpr (List.prefix_append _ _)
      rw [List.nil_append]
      cases whole : needle ++ other with
      | nil =>
          have empty : needle = [] := (List.append_eq_nil_iff.mp whole).1
          simp [find?, empty]
      | cons c rest =>
          rw [whole] at here
          rw [find?, here]
          rfl
  | cons c before ih =>
      rw [List.cons_append, find?] at found ⊢
      rw [← List.cons_append, ← List.append_assoc, isPrefixOf_append (by simp; omega)] at found ⊢
      cases here : needle.isPrefixOf (c :: before ++ needle) with
      | true =>
          rw [here, if_pos rfl, Option.some.injEq] at found
          cases found
      | false =>
          simp only [here, Bool.false_eq_true, if_false, Option.map_eq_some_iff] at found ⊢
          obtain ⟨m, later, same⟩ := found
          rw [List.length_cons, Nat.succ.injEq] at same
          subst same
          exact ⟨_, ih (by simpa using later), rfl⟩

end Text

namespace Literal

/-! ## Openings -/

/-- A literal opens with one of the prefixes, or with none, before its quote. -/
theorem opening?_eq_some {text : Text} {opening : Opening} :
    opening? text = some opening ↔
      ∃ word rest, (word, opening.raw) ∈ ([], false) :: prefixes ∧
        word.length = opening.prefixLength ∧ text = word ++ opening.quote :: rest ∧
        (opening.quote = '"' ∨ opening.quote = '\'' ∧ opening.raw = false) := by
  constructor
  · intro found
    simp only [opening?, Option.orElse_eq_orElse, Option.orElse_eq_or, Option.or_eq_some_iff] at found
    rcases found with prefixed | ⟨-, bare⟩
    · obtain ⟨⟨word, raw⟩, known, picked⟩ := List.exists_of_findSome?_eq_some prefixed
      simp only [Option.ite_none_right_eq_some, Option.some.injEq] at picked
      obtain ⟨isPrefix, quote, rfl⟩ := picked
      obtain ⟨after, rfl⟩ := List.isPrefixOf_iff_prefix.mp isPrefix
      rw [List.drop_left] at quote ⊢
      refine ⟨word, after.drop 1, List.mem_cons_of_mem _ known, rfl, ?_, by simpa using quote⟩
      cases after with
      | nil => simp [Text.nul] at quote
      | cons c after => rfl
    · simp only [Option.ite_none_right_eq_some, Option.some.injEq] at bare
      obtain ⟨quote, rfl⟩ := bare
      refine ⟨[], text.drop 1, by simp, rfl, ?_, by simpa using quote⟩
      cases text with
      | nil => simp [Text.nul] at quote
      | cons c text => rfl
  · rintro ⟨word, rest, known, length, rfl, quote⟩
    obtain ⟨prefixLength, raw, mark⟩ := opening
    simp only [prefixes, List.mem_cons, Prod.mk.injEq, List.not_mem_nil, or_false] at known
    simp only at length quote
    subst length
    rcases quote with rfl | ⟨rfl, rfl⟩
    · rcases known with ⟨rfl, rfl⟩ | ⟨rfl, rfl⟩ | ⟨rfl, rfl⟩ | ⟨rfl, rfl⟩ | ⟨rfl, rfl⟩ | ⟨rfl, rfl⟩ |
        ⟨rfl, rfl⟩ | ⟨rfl, rfl⟩ | ⟨rfl, rfl⟩ | ⟨rfl, rfl⟩ <;>
      simp [opening?, prefixes, Text.first]
    · rcases known with ⟨rfl, -⟩ | ⟨rfl, raw⟩ | ⟨rfl, raw⟩ | ⟨rfl, raw⟩ | ⟨rfl, raw⟩ | ⟨rfl, raw⟩ |
        ⟨rfl, -⟩ | ⟨rfl, -⟩ | ⟨rfl, -⟩ | ⟨rfl, -⟩ <;>
      first
        | cases raw
        | simp [opening?, prefixes, Text.first]

/-! ## Escape sequences and bodies -/

/-- An escape sequence that ends inside the first part of a text does not depend on what follows the
character after that part. -/
theorem escape_congr {part : Text} {c : Char} {rest : Text}
    (inside : (escape (part ++ c :: rest)).length ≤ part.length) (other : Text) :
    escape (part ++ c :: other) = escape (part ++ c :: rest) := by
  cases part with
  | nil =>
      simp only [List.nil_append, escape] at inside ⊢
      split_ifs at inside ⊢ <;> simp at inside ⊢
  | cons d part =>
      simp only [List.cons_append, escape, List.length_cons] at inside ⊢
      split_ifs at inside ⊢
      · rfl
      · have digits : (((part ++ c :: rest).take 2).takeWhile Text.isOctalDigit).length ≤
            part.length := by
          simp only at inside
          omega
        simp only [Text.takeWhile_take_congr digits other]
      · have digits : ((part ++ c :: rest).takeWhile Text.isHexDigit).length ≤ part.length := by
          simp only at inside
          omega
        simp only [Text.takeWhile_congr digits other]
      · have digits : (((part ++ c :: rest).take 4).takeWhile Text.isHexDigit).length ≤
            part.length := by
          simp only at inside
          omega
        simp only [Text.takeWhile_take_congr digits other]
      · have digits : (((part ++ c :: rest).take 8).takeWhile Text.isHexDigit).length ≤
            part.length := by
          simp only at inside
          omega
        simp only [Text.takeWhile_take_congr digits other]
      · rfl
      · rfl

theorem escape_le (text : Text) : (escape text).length ≤ text.length := by
  have run (p : Char → Bool) (n : Nat) (rest : Text) :
      ((rest.take n).takeWhile p).length ≤ rest.length := by
    have inside := (List.takeWhile_sublist (l := rest.take n) p).length_le
    rw [List.length_take] at inside
    omega
  cases text with
  | nil => exact Nat.le_refl _
  | cons c rest =>
      simp only [escape, List.length_cons]
      split_ifs
      · simp only
        omega
      · have inside := run Text.isOctalDigit 2 rest
        simp only
        omega
      · have inside := (List.takeWhile_sublist (l := rest) Text.isHexDigit).length_le
        simp only
        omega
      · have inside := run Text.isHexDigit 4 rest
        simp only
        omega
      · have inside := run Text.isHexDigit 8 rest
        simp only
        omega
      · simp only
        omega
      · simp only
        omega

theorem body_cons (quote c : Char) (rest : Text) :
    body quote (c :: rest) =
      if c = quote then { closed := true }
      else if c = '\n' then {}
      else if c = '\\' then
        let e := escape rest
        let more := body quote (rest.drop e.length)
        { more with length := 1 + e.length + more.length, badEscape := !e.valid || more.badEscape }
      else
        let more := body quote rest
        { more with length := 1 + more.length } := by
  rw [body]

theorem body_le (quote : Char) (text : Text) : (body quote text).length ≤ text.length := by
  induction size : text.length using Nat.strongRecOn generalizing text with
  | ind n ih =>
      subst size
      cases text with
      | nil => simp [body]
      | cons c rest =>
          rw [body_cons, List.length_cons]
          split_ifs
          · exact Nat.zero_le _
          · exact Nat.zero_le _
          · have inside := escape_le rest
            have later := ih (rest.drop (escape rest).length).length
              (by simp only [List.length_drop, List.length_cons]; omega) _ rfl
            rw [List.length_drop] at later
            simp only
            omega
          · have later := ih rest.length (by simp) _ rfl
            simp only
            omega

/-- A body that is closed is followed by its quote. -/
theorem exists_append_of_closed {quote : Char} {text : Text}
    (closed : (body quote text).closed = true) :
    ∃ content rest, text = content ++ quote :: rest ∧
      (body quote text).length = content.length := by
  induction size : text.length using Nat.strongRecOn generalizing text with
  | ind n ih =>
      subst size
      cases text with
      | nil => simp [body] at closed
      | cons c text =>
          rw [body_cons] at closed ⊢
          split_ifs at closed ⊢ with isQuote isLineFeed isBackslash
          · exact ⟨[], text, by rw [isQuote]; rfl, rfl⟩
          · obtain ⟨content, rest, split, length⟩ :=
              ih _ (by simp only [List.length_drop, List.length_cons]; omega) closed rfl
            have enough := escape_le text
            refine ⟨c :: (text.take (escape text).length ++ content), rest, ?_, ?_⟩
            · rw [List.cons_append, List.append_assoc, ← split, List.take_append_drop]
            · simp only [length, List.length_cons, List.length_append, List.length_take]
              omega
          · obtain ⟨content, rest, split, length⟩ := ih _ (by simp) closed rfl
            refine ⟨c :: content, rest, by rw [split]; rfl, ?_⟩
            simp only [length, List.length_cons]
            omega

/-- A body that is closed does not depend on what follows the closing quote. -/
theorem body_congr {quote : Char} {content rest : Text}
    (closed : (body quote (content ++ quote :: rest)).closed = true)
    (length : (body quote (content ++ quote :: rest)).length = content.length) (other : Text) :
    body quote (content ++ quote :: other) = body quote (content ++ quote :: rest) := by
  induction size : content.length using Nat.strongRecOn generalizing content with
  | ind n ih =>
      subst size
      cases content with
      | nil => simp [body_cons]
      | cons c content =>
          simp only [List.cons_append, body_cons] at closed length ⊢
          split_ifs at closed length ⊢ with isQuote isLineFeed isBackslash
          · simp only [List.length_cons] at length
            have inside : (escape (content ++ quote :: rest)).length ≤ content.length := by omega
            have same := escape_congr inside other
            rw [same]
            rw [List.drop_append_of_le_length inside] at closed length ⊢
            rw [List.drop_append_of_le_length inside]
            rw [ih _ (by simp only [List.length_drop, List.length_cons]; omega) closed
              (by simp only [List.length_drop]; omega) rfl]
          · simp only [List.length_cons] at length
            rw [ih _ (by simp) closed (by omega) rfl]

/-! ## Suffixes -/

/-- A text is what a user-defined suffix may be, or nothing. -/
def IsSuffix (suffix : Text) : Prop :=
  suffix ≠ [] → Text.first suffix ≠ '$' ∧ Text.isIdentifierStart (Text.first suffix) = true ∧
    ∀ c ∈ suffix, Text.isIdentifierChar c = true

/-- A suffix ends before a text. -/
def SuffixEnds (suffix rest : Text) : Prop :=
  if suffix = [] then
    Text.first rest = '$' ∨ Text.isIdentifierStart (Text.first rest) = false
  else
    Text.isIdentifierChar (Text.first rest) = false

theorem suffixLength_cons (c : Char) (rest : Text) :
    suffixLength (c :: rest) =
      if c = '$' then 0
      else if Text.isIdentifierStart c then ((c :: rest).takeWhile Text.isIdentifierChar).length
      else 0 := by
  by_cases dollar : c = '$'
  · simp [suffixLength, dollar]
  · rw [suffixLength, if_pos (show Text.first (c :: rest) ≠ '$' from dollar), if_neg dollar]
    rfl

theorem suffixLength_append {suffix rest : Text} :
    suffixLength (suffix ++ rest) = suffix.length ↔ IsSuffix suffix ∧ SuffixEnds suffix rest := by
  cases suffix with
  | nil =>
      simp only [List.nil_append, List.length_nil, IsSuffix, SuffixEnds, if_true, suffixLength]
      by_cases dollar : Text.first rest = '$'
      · simp [dollar]
      · cases starts : Text.isIdentifierStart (Text.first rest) with
        | false => simp
        | true =>
            cases rest with
            | nil => simp [Text.isIdentifierStart, Text.nul] at starts
            | cons c rest =>
                have isOne := Text.isIdentifierChar_of_isIdentifierStart starts
                simp only [Text.first_cons] at dollar isOne
                simp [dollar, isOne]
  | cons c suffix =>
      have nulEnds : Text.isIdentifierChar Text.nul = false := by decide
      simp only [List.cons_append, IsSuffix, SuffixEnds, suffixLength_cons, Text.first_cons, ne_eq,
        reduceCtorEq, not_false_eq_true, if_false, forall_const]
      constructor
      · intro length
        split_ifs at length with dollar starts
        rw [← List.cons_append] at length
        obtain ⟨all, ends⟩ := Text.forall_of_length_takeWhile nulEnds length
        exact ⟨⟨dollar, starts, all⟩, ends⟩
      · rintro ⟨⟨noDollar, starts, all⟩, ends⟩
        rw [if_neg noDollar, if_pos starts, ← List.cons_append, Text.takeWhile_append all ends]

theorem suffixLength_le (text : Text) : suffixLength text ≤ text.length := by
  unfold suffixLength
  split_ifs
  · exact (List.takeWhile_sublist _).length_le
  · exact Nat.zero_le _
  · exact Nat.zero_le _

/-- The suffix at the start of a text. -/
theorem exists_suffix (text : Text) :
    ∃ suffix rest, text = suffix ++ rest ∧ suffixLength text = suffix.length := by
  refine ⟨text.take (suffixLength text), text.drop (suffixLength text), ?_, ?_⟩
  · rw [List.take_append_drop]
  · rw [List.length_take, Nat.min_eq_left (suffixLength_le text)]

/-! ## Raw literals -/

/-- The characters of delimiters. -/
def isDelimiter (c : Char) : Bool :=
  !(['(', ' ', ')', '\\', '\n', '\t', '"'].contains c)

/-- A raw literal is read from its delimiter to the first place where the delimiter closes it. -/
theorem rawLength?_append {d inner rest : Text} (delimits : ∀ c ∈ d, isDelimiter c = true)
    (short : d.length ≤ 16)
    (closes : Text.find? (')' :: d ++ ['"']) (inner ++ (')' :: d ++ ['"'] ++ rest)) =
      some inner.length) :
    rawLength? (d ++ '(' :: (inner ++ (')' :: d ++ ['"'] ++ rest))) =
      some (d.length + 1 + inner.length + (d.length + 2) + suffixLength rest) := by
  have whole : delimiter (d ++ '(' :: (inner ++ (')' :: d ++ ['"'] ++ rest))) = d :=
    Text.takeWhile_append delimits rfl
  have closed : d.length + 1 + inner.length + (d.length + 2) =
      (d ++ '(' :: (inner ++ (')' :: d ++ ['"']))).length := by
    simp only [List.length_append, List.length_cons, List.length_nil]
    omega
  have after : d ++ '(' :: (inner ++ (')' :: d ++ ['"'] ++ rest)) =
      d ++ '(' :: (inner ++ (')' :: d ++ ['"'])) ++ rest := by simp
  rw [rawLength?]
  simp only [whole]
  rw [if_neg (by omega), List.drop_left]
  simp only [closes, Option.map_some]
  rw [closed, after, List.drop_left]

/-- A raw literal that is closed reaches to its closing quote, and takes a suffix from whatever
follows. -/
theorem exists_append_of_rawLength? {text : Text} {n : Nat} (found : rawLength? text = some n) :
    ∃ closed rest, text = closed ++ '"' :: rest ∧ n = closed.length + 1 + suffixLength rest ∧
      ∀ other, rawLength? (closed ++ '"' :: other) =
        some (closed.length + 1 + suffixLength other) := by
  obtain ⟨after, split⟩ : delimiter text <+: text := List.takeWhile_prefix isDelimiter
  have delimits : ∀ c ∈ delimiter text, isDelimiter c = true :=
    fun c present => List.mem_takeWhile_imp present
  have original := found
  rw [rawLength?] at found
  split_ifs at found with tooLong
  split at found
  · rename_i content opens
    rw [Option.map_eq_some_iff] at found
    obtain ⟨inside, closes, -⟩ := found
    obtain ⟨inner, rest, rfl, rfl⟩ := Text.exists_append_of_find? closes
    generalize delimiter text = d at *
    subst split
    rw [List.drop_left] at opens
    subst opens
    have read (other : Text) := rawLength?_append delimits (Nat.not_lt.mp tooLong)
      (Text.find?_append closes other)
    have length : (d ++ '(' :: (inner ++ ')' :: d)).length + 1 =
        d.length + 1 + inner.length + (d.length + 2) := by
      simp only [List.length_append, List.length_cons]
      omega
    have form (other : Text) : d ++ '(' :: (inner ++ (')' :: d ++ ['"'] ++ other)) =
        (d ++ '(' :: (inner ++ ')' :: d)) ++ '"' :: other := by simp
    refine ⟨d ++ '(' :: (inner ++ ')' :: d), rest, form rest, ?_, fun other => ?_⟩
    · rw [read rest, Option.some.injEq] at original
      rw [length, original]
    · rw [length, ← form other]
      exact read other
  · cases found

/-- No part of the text of a raw literal closes it if the whole text does not. -/
theorem rawLength?_of_prefix {part text : Text} (starts : part <+: text)
    (isOpen : rawLength? text = none) : rawLength? part = none := by
  rw [Option.eq_none_iff_forall_ne_some]
  intro n found
  obtain ⟨more, rfl⟩ := starts
  obtain ⟨closed, rest, rfl, -, reads⟩ := exists_append_of_rawLength? found
  rw [List.append_assoc, List.cons_append, reads] at isOpen
  cases isOpen

end Literal

end CPreprocessor
