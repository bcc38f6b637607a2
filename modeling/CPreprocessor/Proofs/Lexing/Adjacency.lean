/-
# Neighbours

In the default language a lexeme that ends before its neighbour ends before the
neighbour and whatever follows it, with one exception: two points end before each
other, but not before a third one. Blanks and brackets end every lexeme.
-/
import CPreprocessor.Token.Spelling
import CPreprocessor.Proofs.Lexing.Words

namespace CPreprocessor

namespace Text

/-- Blanks and the characters that never run together with a neighbour. -/
def isDetached (c : Char) : Bool :=
  c = ' ' || Spelling.closedCharacters.contains c

theorem closedCharacters_eq :
    Spelling.closedCharacters = ['(', ')', '[', ']', '\x7b', '\x7d', ';', ','] := by
  decide

/-- A detached character belongs to no name, number, literal or longer punctuator. -/
theorem isDetached_cases {c : Char} (detached : isDetached c = true) :
    isIdentifierChar c = false ∧ Lexeme.isNumberChar c = false ∧ c ≠ '"' ∧ c ≠ '\'' ∧ c ≠ '/' ∧
      c ≠ '*' ∧ c ≠ '.' := by
  have known : c ∈ [' ', '(', ')', '[', ']', '\x7b', '\x7d', ';', ','] := by
    simp only [isDetached, closedCharacters_eq, Bool.or_eq_true, decide_eq_true_eq,
      List.contains_iff_mem] at detached
    exact List.mem_cons.mpr detached
  have all : [' ', '(', ')', '[', ']', '\x7b', '\x7d', ';', ','].all (fun c =>
      !isIdentifierChar c && !Lexeme.isNumberChar c && c != '"' && c != '\'' && c != '/' &&
        c != '*' && c != '.') = true := by
    decide
  have one := List.all_eq_true.mp all c known
  simpa [and_assoc] using one

end Text

namespace Language

/-- A detached character of a punctuator is the whole of it. -/
theorem eq_singleton_of_isDetached {p : Text} (known : p ∈ standard.punctuators) {c : Char}
    (present : c ∈ p) (detached : Text.isDetached c = true) : p = [c] := by
  have all : standard.punctuators.all
      (fun p => p.all fun c => !Text.isDetached c || p == [c]) = true := by
    decide
  have one := List.all_eq_true.mp (List.all_eq_true.mp all p known) c present
  rw [detached] at one
  simpa using one

theorem length_le_four {p : Text} (known : p ∈ standard.punctuators) : p.length ≤ 4 := by
  have all : standard.punctuators.all (fun p => p.length ≤ 4) = true := by
    decide
  exact of_decide_eq_true (List.all_eq_true.mp all p known)

/-- A punctuator that is cut at `i` and `j` has a punctuator across its first cut, but for three
points and the longest spelling of `##`. -/
def isCutAcross (p : Text) (i j : Nat) : Bool :=
  standard.punctuators.any (fun q => q.isPrefixOf (p.take j) && i < q.length)
    || (p.take i == ['.'] && (p.take j).drop i == ['.'] && p.drop j == ['.'])
    || (p.take i == ['%', ':'] && (p.take j).drop i == ['%'] && p.drop j == [':'])

theorem isCutAcross_of_mem {p : Text} (known : p ∈ standard.punctuators) {i j : Nat} (left : 0 < i)
    (middle : i < j) (right : j < p.length) : isCutAcross p i j = true := by
  have all : standard.punctuators.all (fun p => (List.range 4).all fun i => (List.range 4).all fun j =>
      !(0 < i && i < j && j < p.length) || isCutAcross p i j) = true := by
    decide +kernel
  have short := length_le_four known
  have one := List.all_eq_true.mp (List.all_eq_true.mp (List.all_eq_true.mp all p known) i
    (List.mem_range.mpr (by omega))) j (List.mem_range.mpr (by omega))
  simpa [left, middle, right] using one

/-- A punctuator in three parts has a punctuator that starts with the first part and ends in the
second, but for three points and the longest spelling of `##`. -/
theorem exists_punctuator_across {w r m : Text} (known : w ++ r ++ m ∈ standard.punctuators)
    (left : w ≠ []) (middle : r ≠ []) (right : m ≠ []) :
    (∃ p ∈ standard.punctuators, p <+: w ++ r ∧ w.length < p.length) ∨
      (w = ['.'] ∧ r = ['.'] ∧ m = ['.']) ∨ (w = ['%', ':'] ∧ r = ['%'] ∧ m = [':']) := by
  have positive := And.intro (List.length_pos_iff.mpr left)
    (And.intro (List.length_pos_iff.mpr middle) (List.length_pos_iff.mpr right))
  have inner : w.length < (w ++ r).length := by
    rw [List.length_append]
    omega
  have outer : (w ++ r).length < (w ++ r ++ m).length := by
    simp only [List.length_append]
    omega
  have across := isCutAcross_of_mem known positive.1 inner outer
  have whole : (w ++ r ++ m).take w.length = w := by
    rw [List.append_assoc, List.take_left]
  simp only [isCutAcross, whole, List.take_left, List.drop_left, Bool.or_eq_true, Bool.and_eq_true,
    List.any_eq_true, beq_iff_eq, List.isPrefixOf_iff_prefix, decide_eq_true_eq] at across
  rcases across with (⟨q, isOne, isPrefix, longer⟩ | points) | hashes
  · exact .inl ⟨q, isOne, isPrefix, longer⟩
  · exact .inr (.inl ⟨points.1.1, points.1.2, points.2⟩)
  · exact .inr (.inr ⟨hashes.1.1, hashes.1.2, hashes.2⟩)

end Language

namespace Lexeme

variable {kind next : TokenKind} {w r rest more : Text}

/-- A lexeme of the default language without errors, as it is read somewhere where no gap stands. -/
structure IsLexeme (kind : TokenKind) (w : Text) : Prop where
  nonempty : w ≠ []
  reads : ∃ rest, Gap.starts (w ++ rest) = false ∧
    read .standard (w ++ rest) = ⟨kind, w.length, none⟩

/-- Names are made of characters of names. -/
theorem IsLexeme.forall_isIdentifierChar (lexeme : IsLexeme kind w)
    (isName : kind = .keyword ∨ kind = .identifier) : ∀ c ∈ w, Text.isIdentifierChar c = true := by
  obtain ⟨-, rest, -, reads⟩ := lexeme
  have kinds := congrArg Lexeme.kind reads
  rcases read_cases .standard (w ++ rest) with
    ⟨-, same⟩ | ⟨opening, -, same⟩ | ⟨-, starts, same⟩ | ⟨-, -, -, same⟩
  · rw [same] at kinds
    rcases isName with rfl | rfl <;> cases kinds
  · rw [same] at kinds
    split_ifs at kinds
    · rw [kind_readRaw] at kinds
      rcases isName with rfl | rfl <;> cases kinds
    · rw [kind_readQuoted] at kinds
      split_ifs at kinds <;> rcases isName with rfl | rfl <;> cases kinds
  · rw [same] at reads
    obtain ⟨c, tail, rfl, isStart, all, -, -⟩ := exists_name starts reads
    exact List.forall_mem_cons.mpr ⟨Text.isIdentifierChar_of_isIdentifierStart isStart, all⟩
  · rw [same] at kinds
    rcases isName with rfl | rfl <;> cases kinds

/-! ## Detached neighbours -/

theorem isIdentifierStart_eq_false {c : Char} (noName : Text.isIdentifierChar c = false) :
    Text.isIdentifierStart c = false := by
  rw [Text.isIdentifierChar, Bool.or_eq_false_iff] at noName
  exact noName.1

/-- A lexeme ends before a character that continues no name and no number and is no quote, unless it
continues a punctuator. -/
theorem IsLexeme.ends_of_first (lexeme : IsLexeme kind w)
    (noName : Text.isIdentifierChar (Text.first rest) = false)
    (noNumber : isNumberChar (Text.first rest) = false) (noDouble : Text.first rest ≠ '"')
    (noSingle : Text.first rest ≠ '\'')
    (longest : ∀ p ∈ Language.standard.punctuators, p <+: w ++ rest → p.length ≤ w.length) :
    Ends .standard kind w rest := by
  have nameEnds (isName : kind = .keyword ∨ kind = .identifier) : NameEnds w rest := by
    refine ⟨?_, noName⟩
    rw [Option.eq_none_iff_forall_ne_some]
    intro opening opens
    obtain ⟨-, -, same, quote⟩ :=
      opening?_append_eq_some (lexeme.forall_isIdentifierChar isName) noName opens
    rw [← same] at quote
    rcases quote with double | ⟨single, -⟩
    · exact noDouble double
    · exact noSingle single
  have literalEnds : LiteralEnds w rest := by
    rw [LiteralEnds]
    split_ifs
    · exact .inr (isIdentifierStart_eq_false noName)
    · exact noName
  cases kind with
  | number =>
      exact ⟨isExponent_eq_false_of_isNumberChar (.inr noNumber),
        continuesNumber_eq_false_of_isNumberChar noNumber _⟩
  | keyword => exact nameEnds (.inl rfl)
  | identifier => exact nameEnds (.inr rfl)
  | string => exact literalEnds
  | character => exact literalEnds
  | punctuator =>
      refine ⟨longest, fun _ => ?_⟩
      rw [Text.isIdentifierChar, Bool.or_eq_false_iff] at noName
      exact noName.2
  | comment => trivial
  | whitespace => trivial
  | endOfFile => trivial

/-- Every lexeme ends before a detached character. -/
theorem IsLexeme.ends_of_isDetached (lexeme : IsLexeme kind w) {c : Char}
    (detached : Text.isDetached c = true) (rest : Text) : Ends .standard kind w (c :: rest) := by
  obtain ⟨noName, noNumber, noDouble, noSingle, -⟩ := Text.isDetached_cases detached
  refine lexeme.ends_of_first noName noNumber noDouble noSingle fun p known isPrefix => ?_
  by_contra longer
  have there : p[w.length]? = some c := by
    rw [List.prefix_iff_eq_take.mp isPrefix, List.getElem?_take_of_lt (by omega),
      List.getElem?_append_right (Nat.le_refl _), Nat.sub_self]
    rfl
  have single := Language.eq_singleton_of_isDetached known (List.mem_of_getElem? there) detached
  have positive := List.length_pos_iff.mpr lexeme.nonempty
  rw [single, List.length_singleton] at longer
  omega

/-- Every lexeme ends at the end of the text. -/
theorem IsLexeme.ends_nil (lexeme : IsLexeme kind w) : Ends .standard kind w [] := by
  refine lexeme.ends_of_first rfl rfl (by decide) (by decide) fun p _ isPrefix => ?_
  rw [List.append_nil] at isPrefix
  exact isPrefix.length_le

/-- A lexeme that ends with a detached character ends before everything. -/
theorem IsLexeme.ends_of_isDetached_getLastD (lexeme : IsLexeme kind w)
    (detached : Text.isDetached (w.getLastD Text.nul) = true) (rest : Text) :
    Ends .standard kind w rest := by
  obtain ⟨noName, noNumber, noDouble, noSingle, -, -, noPoint⟩ := Text.isDetached_cases detached
  obtain ⟨nonempty, before, -, reads⟩ := lexeme
  rcases endsWord_getLastD reads with rfl | isWord
  · constructor
    · intro p known isPrefix
      by_contra longer
      have last : w.getLastD Text.nul ∈ p := by
        have inside : w <+: p :=
          List.prefix_of_prefix_length_le (List.prefix_append w rest) isPrefix (by omega)
        cases w with
        | nil => exact (nonempty rfl).elim
        | cons c w =>
            rw [List.getLastD_cons]
            exact inside.subset List.getLastD_mem_cons
      have single := Language.eq_singleton_of_isDetached known last detached
      have positive := List.length_pos_iff.mpr nonempty
      rw [single, List.length_singleton] at longer
      omega
    · rintro rfl
      exact (noPoint rfl).elim
  · simp only [endsWord, noName, noNumber, Bool.or_eq_true, decide_eq_true_eq, Bool.false_eq_true,
      false_or] at isWord
    rcases isWord with double | single
    · exact (noDouble double).elim
    · exact (noSingle single).elim

/-! ## Words of their own -/

/-- No gap starts with a lexeme, unless it is a slash before a slash or a star. -/
theorem IsLexeme.starts_append (lexeme : IsLexeme kind w) (gap : Gap.starts (w ++ rest) = true) :
    w = ['/'] ∧ (Text.first rest = '/' ∨ Text.first rest = '*') := by
  obtain ⟨nonempty, before, bare, -⟩ := lexeme
  cases w with
  | nil => exact (nonempty rfl).elim
  | cons c w =>
      rw [Bool.eq_false_iff, ne_eq] at bare
      simp only [Gap.starts, Bool.or_eq_true, Bool.and_eq_true, decide_eq_true_eq] at gap bare
      simp only [List.cons_append, Text.first_cons, List.drop_succ_cons, List.drop_zero, not_or] at gap bare
      obtain ⟨noWhite, noComment⟩ := bare
      rcases gap with (lineFeed | blank) | ⟨slash, second⟩
      · exact (noWhite.1 lineFeed).elim
      · exact (noWhite.2 blank).elim
      · cases w with
        | nil => exact ⟨by rw [slash], second⟩
        | cons d w => exact (noComment ⟨slash, second⟩).elim

/-- A lexeme where no gap stands is the first word exactly if it ends there. -/
theorem IsLexeme.words_append (lexeme : IsLexeme kind w) (bare : Gap.starts (w ++ rest) = false)
    {others : List (TokenKind × Text)} :
    words .standard (w ++ rest) = (kind, w) :: others ↔
      Ends .standard kind w rest ∧ words .standard rest = others := by
  obtain ⟨nonempty, before, -, reads⟩ := lexeme
  have more : w ++ rest ≠ [] := by simp [nonempty]
  rw [words_of_not_starts more bare, List.cons.injEq, Prod.mk.injEq]
  constructor
  · rintro ⟨⟨sameKind, sameLexeme⟩, later⟩
    have inside := length_read_le .standard more
    have length : (read .standard (w ++ rest)).length = w.length := by
      rw [← congrArg List.length sameLexeme, List.length_take, Nat.min_eq_left inside]
    rw [length, List.drop_left] at later
    exact ⟨ends_of_length_read reads length, later⟩
  · rintro ⟨ends, later⟩
    rw [read_append_of_ends reads ends, List.take_left, List.drop_left]
    exact ⟨⟨rfl, rfl⟩, later⟩

/-! ## The neighbour and what follows it -/

/-- A quote alone is no lexeme. -/
theorem IsLexeme.ne_quote (lexeme : IsLexeme kind w) : w ≠ ['\''] := by
  rintro rfl
  obtain ⟨-, before, -, reads⟩ := lexeme
  have opens : Literal.opening? (['\''] ++ before) = some ⟨0, false, '\''⟩ :=
    Literal.opening?_eq_some.mpr ⟨[], before, by simp, rfl, rfl, .inr ⟨rfl, rfl⟩⟩
  obtain ⟨closed, quote, suffix, -, nonempty, split, -⟩ := exists_literal opens reads
  have length := congrArg List.length split
  have positive := List.length_pos_iff.mpr nonempty
  simp only [List.length_append, List.length_cons, List.length_nil] at length
  omega

/-- No punctuator is longer than a lexeme that ends where a punctuator is read. -/
theorem IsLexeme.length_le (lexeme : IsLexeme kind w) (ends : Ends .standard kind w rest)
    (noNumber : startsNumber (w ++ rest) = false)
    (noLiteral : Text.first (w ++ rest) ∉ ['u', 'U', 'L', 'R', '"', '\''])
    (noName : Text.isIdentifierStart (Text.first (w ++ rest)) = false) {p : Text}
    (known : p ∈ Language.standard.punctuators) (isPrefix : p <+: w ++ rest) :
    p.length ≤ w.length := by
  obtain ⟨-, before, -, reads⟩ := lexeme
  have noOpening : Literal.opening? (w ++ rest) = none :=
    Option.eq_none_iff_forall_ne_some.mpr fun _ opens => noLiteral (first_mem_of_opening? opens)
  have again := read_append_of_ends reads ends
  rw [read_punctuator .standard noNumber noOpening noName, Lexeme.mk.injEq] at again
  exact Language.punctuatorLength_le.mp (by omega) p known isPrefix

/-- A percent sign does not end before a colon. -/
theorem IsLexeme.not_ends_percent (lexeme : IsLexeme kind ['%']) (rest : Text) :
    ¬ Ends .standard kind ['%'] (':' :: rest) := by
  intro ends
  have known : ['%', ':'] ∈ Language.standard.punctuators := by decide
  have short := lexeme.length_le ends rfl (by simp) rfl known (List.prefix_append ['%', ':'] rest)
  simp at short

/-- A point does not end before two points: the three are one punctuator. -/
theorem IsLexeme.not_ends_points (lexeme : IsLexeme kind ['.']) (rest : Text) :
    ¬ Ends .standard kind ['.'] ('.' :: '.' :: rest) := by
  intro ends
  have known : ['.', '.', '.'] ∈ Language.standard.punctuators := by decide
  have short := lexeme.length_le ends rfl (by simp) rfl known (List.prefix_append ['.', '.', '.'] rest)
  simp at short

theorem numberEnds_append {last : Char} (neighbour : IsLexeme next r) (ends : NumberEnds last r) :
    NumberEnds last (r ++ more) := by
  obtain ⟨noExponent, stops⟩ := ends
  rw [NumberEnds, Text.first_append neighbour.nonempty]
  refine ⟨noExponent, ?_⟩
  match r, neighbour.nonempty, neighbour.ne_quote with
  | [c], _, noQuote =>
      -- The second character matters after a digit separator only, and that is no lexeme alone.
      have noSeparator : c ≠ '\'' := by
        rintro rfl
        exact noQuote rfl
      simpa [continuesNumber, noSeparator] using stops
  | _ :: _ :: _, _, _ => exact stops

theorem nameEnds_append (neighbour : IsLexeme next r) (ends : NameEnds w r)
    (all : ∀ c ∈ w, Text.isIdentifierChar c = true) : NameEnds w (r ++ more) := by
  obtain ⟨noLiteral, stops⟩ := ends
  have first := Text.first_append neighbour.nonempty more
  refine ⟨?_, by rw [first]; exact stops⟩
  rw [Option.eq_none_iff_forall_ne_some]
  intro opening opens
  obtain ⟨known, length, same, quote⟩ :=
    opening?_append_eq_some all (show Text.isIdentifierChar (Text.first (r ++ more)) = false by
      rw [first]; exact stops) opens
  rw [first] at same
  have opensBefore : Literal.opening? (w ++ r) = some opening := by
    refine Literal.opening?_eq_some.mpr ⟨w, r.drop 1, known, length, ?_, quote⟩
    rw [← same]
    cases r with
    | nil => exact (neighbour.nonempty rfl).elim
    | cons c r => rfl
  rw [noLiteral] at opensBefore
  cases opensBefore

theorem literalEnds_append_neighbour (neighbour : IsLexeme next r) (ends : LiteralEnds w r) :
    LiteralEnds w (r ++ more) := by
  rw [LiteralEnds, Text.first_append neighbour.nonempty]
  exact ends

theorem punctuatorEnds_append (nonempty : w ≠ []) (neighbour : IsLexeme next r)
    (ends : PunctuatorEnds .standard w r) (after : Ends .standard next r more) :
    (w = ['.'] ∧ r = ['.'] ∧ Text.first more = '.') ∨ PunctuatorEnds .standard w (r ++ more) := by
  obtain ⟨longest, noDigit⟩ := ends
  by_cases points : w = ['.'] ∧ r = ['.'] ∧ Text.first more = '.'
  · exact .inl points
  · refine .inr ⟨fun p known isPrefix => ?_, ?_⟩
    · by_contra longer
      rw [← List.append_assoc] at isPrefix
      by_cases short : p.length ≤ (w ++ r).length
      · have inside : p <+: w ++ r :=
          List.prefix_of_prefix_length_le isPrefix (List.prefix_append _ _) short
        exact longer (longest p known inside)
      · -- The punctuator reaches beyond the neighbour.
        obtain ⟨m, rfl⟩ : w ++ r <+: p :=
          List.prefix_of_prefix_length_le (List.prefix_append _ _) isPrefix (by omega)
        have reaches : m <+: more := (List.prefix_append_right_inj _).mp isPrefix
        have remains : m ≠ [] := by
          rintro rfl
          simp at short
        rcases Language.exists_punctuator_across known nonempty neighbour.nonempty remains with
          ⟨q, isOne, across, tooLong⟩ | ⟨rfl, rfl, rfl⟩ | ⟨rfl, rfl, rfl⟩
        · exact Nat.not_le_of_lt tooLong (longest q isOne across)
        · obtain ⟨rest, rfl⟩ := reaches
          exact points ⟨rfl, rfl, rfl⟩
        · obtain ⟨rest, rfl⟩ := reaches
          exact neighbour.not_ends_percent rest after
    · rw [Text.first_append neighbour.nonempty]
      exact noDigit

/-- A lexeme that ends before its neighbour ends before whatever the neighbour ends before, unless
both are points and a third one follows. -/
theorem IsLexeme.ends_append (lexeme : IsLexeme kind w) (neighbour : IsLexeme next r)
    (ends : Ends .standard kind w r) (after : Ends .standard next r more) :
    (w = ['.'] ∧ r = ['.'] ∧ Text.first more = '.') ∨ Ends .standard kind w (r ++ more) := by
  cases kind with
  | number => exact .inr (numberEnds_append neighbour ends)
  | keyword =>
      exact .inr (nameEnds_append neighbour ends (lexeme.forall_isIdentifierChar (.inl rfl)))
  | identifier =>
      exact .inr (nameEnds_append neighbour ends (lexeme.forall_isIdentifierChar (.inr rfl)))
  | string => exact .inr (literalEnds_append_neighbour neighbour ends)
  | character => exact .inr (literalEnds_append_neighbour neighbour ends)
  | punctuator => exact punctuatorEnds_append lexeme.nonempty neighbour ends after
  | comment => exact .inr trivial
  | whitespace => exact .inr trivial
  | endOfFile => exact .inr trivial

end Lexeme

end CPreprocessor
