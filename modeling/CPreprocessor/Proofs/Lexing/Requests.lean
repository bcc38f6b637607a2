/-
# Mixed reading

A lexer is asked for the next token, for a look at it, or for the next token of the line. All three
share one place in the source, the flags of the next token and the token that was looked at. Whatever
is asked in whatever order, no token is lost and none is given twice: a request takes the token
that `next` would give, or it takes none and `next` still gives the same (`Lexer.IsSteady.answer`).
-/
import CPreprocessor.Proofs.Lexing.Bare
import CPreprocessor.Proofs.Lexing.Trivia

namespace CPreprocessor

/-! ## The part of a gap that is on its line -/

namespace Gap

theorem empty_followedBy (gap : Gap) : followedBy {} gap = gap := by
  simp [followedBy]

theorem after_followedBy (n : Nat) (newline : Bool) (first second : Gap) :
    (first.followedBy second).after n newline = (first.after n newline).followedBy second := by
  simp only [after, followedBy, Nat.add_assoc, Bool.or_assoc]

/-- The ways in which a gap begins that may go on across lines or not. Without a line feed at its
start, both begin in the same way. -/
theorem read_line_cases (text : Text) :
    (read false text = {} ∧ (read true text = {} ∨ text.head? = some '\n')) ∨
      (∃ n, 0 < n ∧ n ≤ text.length ∧
        ∀ acrossLines, read acrossLines text = (read acrossLines (text.drop n)).after n false) ∨
      (read true text = read false text ∧ (read false text).length = text.length) := by
  cases text with
  | nil => exact .inl ⟨read_nil false, .inl (read_nil true)⟩
  | cons c rest =>
    by_cases feed : c = '\n'
    · subst feed
      exact .inl ⟨by rw [read_cons, if_pos rfl, if_neg Bool.false_ne_true], .inr rfl⟩
    · simp only [read_cons, if_neg feed]
      split_ifs with blank line block closed
      · exact .inr (.inl ⟨1, by omega, by simp, fun _ => rfl⟩)
      · have inside := Text.lineLength_le rest
        refine .inr (.inl ⟨1 + Text.lineLength rest, by omega, ?_, fun _ => ?_⟩)
        · rw [List.length_cons]
          omega
        · rw [Nat.add_comm, List.drop_succ_cons]
      · have inside := blockComment_le (rest.drop 1)
        have positive := length_pos_of_block block
        rw [List.length_drop] at inside
        refine .inr (.inl ⟨2 + (blockComment (rest.drop 1)).1, by omega, ?_, fun _ => ?_⟩)
        · rw [List.length_cons]
          omega
        · have oneMore : 2 + (blockComment (rest.drop 1)).1 =
              1 + (blockComment (rest.drop 1)).1 + 1 := by omega
          simp only [oneMore, List.drop_succ_cons]
      · have positive := length_pos_of_block block
        have whole := length_of_blockComment (Bool.eq_false_iff.mpr closed)
        rw [List.length_drop] at whole
        refine .inr (.inr ⟨rfl, ?_⟩)
        simp only [List.length_cons]
        omega
      · exact .inl ⟨rfl, .inl rfl⟩

/-- A gap is its part on the line and the gap after that, which is empty or starts with a line
feed. -/
theorem read_eq_followedBy (text : Text) :
    read true text =
        (read false text).followedBy (read true (text.drop (read false text).length)) ∧
      (read true (text.drop (read false text).length) = {} ∨
        (text.drop (read false text).length).head? = some '\n') := by
  induction size : text.length using Nat.strongRecOn generalizing text with
  | ind n ih =>
    subst size
    obtain ⟨nothing, stops⟩ | ⟨n, positive, inside, same⟩ | ⟨same, whole⟩ := read_line_cases text
    · rw [nothing, empty_followedBy]
      exact ⟨rfl, stops⟩
    · obtain ⟨split, stops⟩ := ih (text.drop n).length (by rw [List.length_drop]; omega) _ rfl
      have length : (read false text).length = n + (read false (text.drop n)).length := by
        rw [same]
        rfl
      rw [List.drop_drop, ← length] at split stops
      refine ⟨?_, stops⟩
      rw [same true, split, after_followedBy, ← same false]
    · rw [same, whole, List.drop_length, read_nil]
      exact ⟨by simp [followedBy], .inl rfl⟩

end Gap

/-! ## Requests -/

namespace Lexer

/-- What a lexer can be asked for. -/
inductive Request where
  /-- The next token. -/
  | next
  /-- A look at the next token. -/
  | peek
  /-- The next token if it is on the same line. -/
  | nextOnLine
  deriving DecidableEq, Repr

/-- What a request takes from the lexer. A look takes nothing. -/
def answer (l : Lexer) : Request → Option Token × Lexer
  | .next => (some l.next.1, l.next.2)
  | .peek => (none, l.peek.2)
  | .nextOnLine => l.nextOnLine

/-- The tokens that requests take, one request after the other, and the lexer after them. -/
def perform (l : Lexer) : List Request → List Token × Lexer
  | [] => ([], l)
  | request :: requests =>
    ((l.answer request).1.toList ++ ((l.answer request).2.perform requests).1,
      ((l.answer request).2.perform requests).2)

/-- The first `n` tokens that `next` gives. -/
def firstTokens (l : Lexer) : Nat → List Token
  | 0 => []
  | n + 1 => l.next.1 :: l.next.2.firstTokens n

variable {l l' : Lexer}

theorem firstTokens_congr (same : l.next = l'.next) (n : Nat) : l.firstTokens n = l'.firstTokens n := by
  cases n with
  | zero => rfl
  | succ n => rw [firstTokens, firstTokens, same]

/-- A lexer that passes over white space. If it has looked at a token, no line start is remembered for
the token after that. -/
structure IsSteady (l : Lexer) : Prop where
  skips : l.keepsTrivia = false
  looked : l.peeked.isSome = true → l.atLineStart = false

theorem IsBare.isSteady (bare : l.IsBare) : l.IsSteady :=
  ⟨bare.skips, fun looked => by rw [bare.fresh] at looked; cases looked⟩

/-- A look leaves the next token to be given. -/
theorem IsSteady.peek (steady : l.IsSteady) :
    l.peek.2.IsSteady ∧ l.peek.2.next = l.next ∧
      (l.atLineStart = false → l.peek.2.atLineStart = false) := by
  unfold Lexer.peek
  cases looked : l.peeked with
  | some token => exact ⟨steady, rfl, id⟩
  | none =>
    have bare : l.IsBare := ⟨steady.skips, looked⟩
    have reading : l.next = l.read := by rw [Lexer.next, looked]
    obtain ⟨after, inLine⟩ := bare.next
    rw [reading] at after inLine ⊢
    refine ⟨⟨after.skips, fun _ => inLine⟩, ?_, fun _ => inLine⟩
    show (l.read.1, { l.read.2 with peeked := none }) = l.read
    rw [← after.fresh]

/-- After a token of the source, the next one is not the first one of a line until a line feed comes. -/
theorem IsSteady.next (steady : l.IsSteady) : l.next.2.IsSteady ∧ l.next.2.atLineStart = false := by
  cases looked : l.peeked with
  | some token =>
    have inLine := steady.looked (by rw [looked]; rfl)
    rw [Lexer.next, looked]
    refine ⟨⟨steady.skips, ?_⟩, inLine⟩
    rintro ⟨⟩
  | none =>
    obtain ⟨after, inLine⟩ := IsBare.next ⟨steady.skips, looked⟩
    exact ⟨after.isSteady, inLine⟩

/-- The gap on the line may be skipped before the rest of the gap. -/
theorem skipGap_skipGap (l : Lexer) : (l.skipGap false).skipGap true = l.skipGap true := by
  obtain ⟨split, -⟩ := Gap.read_eq_followedBy l.rest
  have space (first second : Nat) :
      (decide (first ≠ 0) || decide (second ≠ 0)) = decide (first + second ≠ 0) := by
    rw [← Bool.decide_or]
    congr 1
    simp only [eq_iff_iff]
    omega
  simp only [skipGap, split, Gap.followedBy, Gap.newline_read_false, List.drop_drop, Nat.add_assoc,
    Bool.or_assoc, Bool.false_or, space]

/-- At the end of a line a bare lexer has passed over white space only. Before that it takes the next
token. -/
theorem IsBare.nextOnLine_cases (bare : l.IsBare) :
    (l.nextOnLine = (none, l.skipGap false) ∧
        ((l.skipGap false).rest = [] ∨ (l.skipGap false).rest.head? = some '\n')) ∨
      l.nextOnLine = (some l.next.1, l.next.2) := by
  unfold Lexer.nextOnLine
  rw [bare.fresh]
  simp only []
  split
  · rename_i ends
    rw [Bool.or_eq_true, decide_eq_true_eq, decide_eq_true_eq] at ends
    exact .inl ⟨rfl, ends⟩
  · rename_i more
    have noFeed : (l.skipGap false).rest.head? ≠ some '\n' := fun feed => more (by simp [feed])
    have stops := (Gap.read_eq_followedBy l.rest).2.resolve_right noFeed
    have passed : (l.skipGap false).skipGap true = l.skipGap false := skipGap_of_read_eq stops
    rw [bare.next_eq, ← skipGap_skipGap, passed]
    exact .inr rfl

/-- A token that was looked at is on the line or not. -/
theorem nextOnLine_of_peeked {token : Token} (looked : l.peeked = some token) :
    l.nextOnLine =
      if (l.next.1.isEnd || l.next.1.atLineStart) = true then (none, l)
      else (some l.next.1, l.next.2) := by
  simp only [Lexer.nextOnLine, Lexer.next, looked, Bool.or_comm]

/-- A request takes the token that `next` gives, or none, and then `next` gives the same as before. -/
theorem IsSteady.answer (steady : l.IsSteady) (request : Request) :
    (l.answer request).2.IsSteady ∧
      (l.answer request = (some l.next.1, l.next.2) ∧ l.next.2.atLineStart = false ∨
        (l.answer request).1 = none ∧ (l.answer request).2.next = l.next ∧
          (l.atLineStart = false → (l.answer request).2.atLineStart = false)) := by
  have taken := steady.next
  cases request with
  | next => exact ⟨taken.1, .inl ⟨rfl, taken.2⟩⟩
  | peek =>
    obtain ⟨after, same, inLine⟩ := steady.peek
    exact ⟨after, .inr ⟨rfl, same, inLine⟩⟩
  | nextOnLine =>
    show l.nextOnLine.2.IsSteady ∧ (l.nextOnLine = _ ∧ _ ∨ l.nextOnLine.1 = none ∧
      l.nextOnLine.2.next = l.next ∧ (_ → l.nextOnLine.2.atLineStart = false))
    cases looked : l.peeked with
    | some token =>
      rw [nextOnLine_of_peeked looked]
      split
      · exact ⟨steady, .inr ⟨rfl, rfl, id⟩⟩
      · exact ⟨taken.1, .inl ⟨rfl, taken.2⟩⟩
    | none =>
      have bare : l.IsBare := ⟨steady.skips, looked⟩
      have skipped : (l.skipGap false).IsBare := ⟨bare.skips, bare.fresh⟩
      obtain ⟨found, -⟩ | found := bare.nextOnLine_cases
      · rw [found]
        refine ⟨skipped.isSteady, .inr ⟨rfl, ?_, fun inLine => ?_⟩⟩
        · rw [skipped.next_eq, bare.next_eq, skipGap_skipGap]
        · show (l.atLineStart || (Gap.read false l.rest).newline) = false
          rw [inLine, Gap.newline_read_false, Bool.or_false]
      · rw [found]
        exact ⟨taken.1, .inl ⟨rfl, taken.2⟩⟩

/-- Once a token was taken, there is none on the line exactly if the next token is the first one of
a line or the end of the file. -/
theorem IsSteady.nextOnLine_eq_none_iff (steady : l.IsSteady) (inLine : l.atLineStart = false) :
    l.nextOnLine.1 = none ↔ l.next.1.isEnd = true ∨ l.next.1.atLineStart = true := by
  cases looked : l.peeked with
  | some token =>
    rw [nextOnLine_of_peeked looked, ← Bool.or_eq_true]
    split
    · rename_i ends
      exact ⟨fun _ => ends, fun _ => rfl⟩
    · rename_i onLine
      exact ⟨nofun, fun ends => (onLine ends).elim⟩
  | none =>
    have bare : l.IsBare := ⟨steady.skips, looked⟩
    obtain ⟨found, ends⟩ | found := bare.nextOnLine_cases
    · have skipped : (l.skipGap false).IsBare := ⟨bare.skips, bare.fresh⟩
      have first := (skipped.endsLine (.inr ends)).first
      rw [skipped.next_eq, skipGap_skipGap, ← bare.next_eq] at first
      rw [found]
      exact ⟨fun _ => .inr first, fun _ => rfl⟩
    · have onLine : l.next.1 ∈ l.nextOnLine.1 := by rw [found]; rfl
      have inside := isEnd_nextOnLine onLine
      have stays := (bare.nextOnLine inLine).2.2.1 _ onLine
      rw [found, inside, stays]
      exact ⟨nofun, fun ends => ends.elim nofun nofun⟩

/-- What requests take is what `next` gives, and it goes on with what is left. -/
theorem IsSteady.perform (steady : l.IsSteady) (requests : List Request) :
    (l.perform requests).2.IsSteady ∧
      (∀ n, l.firstTokens ((l.perform requests).1.length + n) =
        (l.perform requests).1 ++ (l.perform requests).2.firstTokens n) ∧
      (l.atLineStart = false ∨ (l.perform requests).1 ≠ [] →
        (l.perform requests).2.atLineStart = false) := by
  induction requests generalizing l with
  | nil =>
    refine ⟨steady, fun n => ?_, fun inLine => ?_⟩
    · rw [Lexer.perform, List.length_nil, Nat.zero_add, List.nil_append]
    · exact inLine.resolve_right (fun taken => taken rfl)
  | cons request requests ih =>
    obtain ⟨after, step⟩ := steady.answer request
    obtain ⟨last, tokens, inLine⟩ := ih after
    simp only [Lexer.perform]
    obtain ⟨taken, begun⟩ | ⟨nothing, same, stays⟩ := step
    · rw [taken] at last tokens inLine ⊢
      refine ⟨last, fun n => ?_, fun _ => inLine (.inl begun)⟩
      rw [Option.toList_some, List.singleton_append, List.length_cons, Nat.succ_add, firstTokens,
        tokens, List.cons_append]
    · rw [nothing, Option.toList_none, List.nil_append]
      refine ⟨last, fun n => ?_, fun more => inLine (more.imp_left stays)⟩
      rw [← tokens, firstTokens_congr same]

/-! ## Tokens that are given -/

/-- A token of a text: a gap, the end of the text, or what was read as a lexeme in it. -/
def IsTokenOf (language : Language) (text : Text) (token : Token) : Prop :=
  token.kind = .comment ∨ token.kind = .whitespace ∨ token.kind = .endOfFile ∨
    ReadsIn language text token

/-- A lexer reads a text: what is left is the end of it, and what was looked at is a token of it. -/
structure IsWithin (language : Language) (text : Text) (l : Lexer) : Prop where
  sameLanguage : l.language = language
  suffix : l.rest <:+ text
  looked : ∀ token ∈ l.peeked, IsTokenOf language text token

variable {language : Language} {text : Text}

theorem isWithin_ofSource (source : Source) (file : FileRef) (language : Language)
    (keepsTrivia : Bool) :
    IsWithin language source.text (ofSource source file language keepsTrivia) :=
  ⟨rfl, List.suffix_refl _, fun _ same => by cases same⟩

theorem IsTokenOf.of_suffix {part : Text} {token : Token} (isToken : IsTokenOf language part token)
    (suffix : part <:+ text) : IsTokenOf language text token :=
  isToken.imp_right (.imp_right (.imp_right fun reads => reads.of_suffix suffix))

/-- Reading where nothing was looked at gives a token of the text. -/
theorem IsWithin.next_of_fresh (within : IsWithin language text l) (fresh : l.peeked = none) :
    IsTokenOf language text l.next.1 ∧ IsWithin language text l.next.2 := by
  obtain ⟨taken, suffix, same, fresh'⟩ := next_cases fresh
  rw [within.sameLanguage] at taken same
  refine ⟨IsTokenOf.of_suffix taken within.suffix, same, suffix.trans within.suffix,
    fun token looked => ?_⟩
  rw [fresh'] at looked
  cases looked

theorem IsWithin.next (within : IsWithin language text l) :
    IsTokenOf language text l.next.1 ∧ IsWithin language text l.next.2 := by
  cases looked : l.peeked with
  | none => exact within.next_of_fresh looked
  | some token =>
    rw [Lexer.next, looked]
    exact ⟨within.looked token looked, within.sameLanguage, within.suffix, fun _ same => by cases same⟩

theorem IsWithin.peek (within : IsWithin language text l) : IsWithin language text l.peek.2 := by
  cases looked : l.peeked with
  | some token =>
    rw [Lexer.peek, looked]
    exact within
  | none =>
    have given := within.next_of_fresh looked
    rw [Lexer.next, looked] at given
    rw [Lexer.peek, looked]
    refine ⟨given.2.sameLanguage, given.2.suffix, fun token same => ?_⟩
    cases same
    exact given.1

theorem IsWithin.nextOnLine (within : IsWithin language text l) :
    (∀ token ∈ l.nextOnLine.1, IsTokenOf language text token) ∧
      IsWithin language text l.nextOnLine.2 := by
  cases looked : l.peeked with
  | some token =>
    rw [nextOnLine_of_peeked looked]
    split_ifs
    · exact ⟨by simp, within⟩
    · exact ⟨fun token same => Option.some.inj same ▸ within.next.1, within.next.2⟩
  | none =>
    have skipped : IsWithin language text (l.skipGap false) :=
      ⟨within.sameLanguage, (List.drop_suffix _ _).trans within.suffix, within.looked⟩
    simp only [Lexer.nextOnLine, looked]
    split_ifs with ends
    · exact ⟨by simp, skipped⟩
    · have noFeed : (l.skipGap false).rest.head? ≠ some '\n' := fun feed => ends (by simp [feed])
      have stops := (Gap.read_eq_followedBy l.rest).2.resolve_right noFeed
      have bare : Gap.starts (l.skipGap false).rest = false := by
        have start := Gap.starts_drop_read (l.skipGap false).rest
        rwa [show Gap.read true (l.skipGap false).rest = {} from stops] at start
      obtain ⟨taken, suffix, same, peeked⟩ := takeLexeme_cases bare
      rw [show (l.skipGap false).language = language from within.sameLanguage] at taken same
      refine ⟨fun token same => ?_, same, suffix.trans skipped.suffix, fun token there => ?_⟩
      · cases same
        exact IsTokenOf.of_suffix (.inr (.inr taken)) skipped.suffix
      · rw [peeked] at there
        exact skipped.looked token there

/-- A request takes a token of the text, if any. -/
theorem IsWithin.answer (within : IsWithin language text l) (request : Request) :
    (∀ token ∈ (l.answer request).1, IsTokenOf language text token) ∧
      IsWithin language text (l.answer request).2 := by
  cases request with
  | next => exact ⟨fun token same => Option.some.inj same ▸ within.next.1, within.next.2⟩
  | peek => exact ⟨by simp [Lexer.answer], within.peek⟩
  | nextOnLine => exact within.nextOnLine

/-- Whatever is asked in whatever order, tokens of the text are given. -/
theorem IsWithin.perform (within : IsWithin language text l) (requests : List Request) :
    ∀ token ∈ (l.perform requests).1, IsTokenOf language text token := by
  induction requests generalizing l with
  | nil => exact fun _ there => by cases there
  | cons request requests ih =>
    obtain ⟨taken, after⟩ := within.answer request
    intro token given
    rw [Lexer.perform, List.mem_append, Option.mem_toList] at given
    obtain here | later := given
    · exact taken token here
    · exact ih after token later

/-! ## The whole source -/

/-- The end of a file is given where only a gap is left. -/
theorem IsBare.rest_of_isEnd (bare : l.IsBare) (ends : l.next.1.isEnd = true) :
    (l.skipGap true).rest = [] := by
  by_contra more
  rw [bare.next_eq, Lexer.takeLexeme, if_neg more] at ends
  exact (Lexeme.kind_read_ne _ _).2.2 (by simpa [take, Token.isEnd] using ends)

/-- After the end of a file the same end is given for ever, but without a gap before it and without an
error. -/
theorem IsBare.next_next_of_isEnd (bare : l.IsBare) (ends : l.next.1.isEnd = true) :
    l.next.2.next = ({ l.next.1 with afterSpace := false, error := none }, l.next.2) := by
  have nothing := bare.rest_of_isEnd ends
  have reading : l.next = (l.skipGap true).takeEnd := by
    rw [bare.next_eq, Lexer.takeLexeme, if_pos nothing]
  have rest : l.next.2.rest = [] := by
    rw [reading]
    exact (congrArg (List.drop 0) nothing).trans List.drop_nil
  rw [bare.next.1.next_eq, skipGap_of_read_eq (by rw [rest, Gap.read_nil]),
    Lexer.takeLexeme, if_pos rest, reading]
  simp [takeEnd, take, nothing]

/-- The tokens of a source end with the end of the file, and the lexer after them gives it again. -/
theorem IsBare.exists_drain (bare : l.IsBare) :
    ∃ inside final, l.drain.1 = inside ++ [final] ∧ final.isEnd = true ∧
      l.drain.2.next = ({ final with afterSpace := false, error := none }, l.drain.2) := by
  induction size : l.size using Nat.strongRecOn generalizing l with
  | ind n ih =>
    subst size
    rw [drain_eq]
    split
    · rename_i ends
      exact ⟨[], l.next.1, rfl, ends, bare.next_next_of_isEnd ends⟩
    · rename_i more
      obtain ⟨inside, final, tokens, ends, again⟩ :=
        ih _ (size_next_lt (Bool.eq_false_iff.mpr more)) bare.next.1 rfl
      exact ⟨l.next.1 :: inside, final, by rw [tokens, List.cons_append], ends, again⟩

theorem firstTokens_of_fixed {token : Token} (fixed : l.next = (token, l)) (n : Nat) :
    l.firstTokens n = List.replicate n token := by
  induction n with
  | zero => rfl
  | succ n ih => rw [firstTokens, fixed, ih, List.replicate_succ]

/-- The tokens that `next` gives are those of the source, and then the end of the file again. -/
theorem IsBare.firstTokens_eq (bare : l.IsBare) {n m : Nat} (enough : n ≤ m) :
    l.firstTokens n = (l.drain.1 ++ List.replicate m l.drain.2.next.1).take n := by
  induction n generalizing l with
  | zero => rw [firstTokens, List.take_zero]
  | succ n ih =>
    rw [firstTokens, drain_eq]
    split
    · rename_i ends
      have again := bare.next_next_of_isEnd ends
      rw [firstTokens_of_fixed again, again, List.singleton_append, List.take_succ_cons,
        List.take_replicate, Nat.min_eq_left (by omega)]
    · rw [List.cons_append, List.take_succ_cons, ih bare.next.1 (by omega)]

/-- The item of a list that is continued with one item for ever. -/
theorem getD_of_continued {α : Type*} {items : List α} {again one : α} {n m : Nat}
    (found : (items ++ List.replicate m again)[n]? = some one) : items[n]?.getD again = one := by
  rw [List.getElem?_append] at found
  split at found
  · rw [found, Option.getD_some]
  · rename_i outside
    rw [List.getElem?_replicate] at found
    split at found
    · rw [List.getElem?_eq_none (by omega), Option.getD_none]
      exact Option.some.inj found
    · cases found

/-- Mixed reading loses no token and repeats none. Whatever is asked of a lexer at the start of its
source, the tokens that are taken are the first ones of the source, followed by the end of the file
without an error as often as it is taken again. Once a token was taken, there is none on the line
exactly if the next one of these tokens is the first one of a line or the end of the file. -/
theorem perform_ofSource (source : Source) (file : FileRef) (language : Language) :
    let l := ofSource source file language false
    ∃ inside final, l.tokenize.1 = inside ++ [final] ∧ final.isEnd = true ∧
      let ending := { final with afterSpace := false, error := none }
      ∀ requests,
        (∃ n, (l.perform requests).1 <+: l.tokenize.1 ++ List.replicate n ending) ∧
        ((l.perform requests).1 ≠ [] →
          let next := l.tokenize.1[(l.perform requests).1.length]?.getD ending
          ((l.perform requests).2.nextOnLine.1 = none ↔
            next.isEnd = true ∨ next.atLineStart = true)) := by
  intro l
  have bare : l.IsBare := ⟨rfl, rfl⟩
  obtain ⟨inside, final, tokens, ends, again⟩ := bare.exists_drain
  refine ⟨inside, final, tokens, ends, fun requests => ?_⟩
  obtain ⟨steady, taken, inLine⟩ := bare.isSteady.perform requests
  have first := (taken 1).symm.trans (bare.firstTokens_eq (Nat.le_refl _))
  rw [again] at first
  refine ⟨⟨_, ((List.prefix_append _ _).trans (first ▸ List.take_prefix _ _))⟩, fun some => ?_⟩
  have nth := congrArg (·[(l.perform requests).1.length]?) first
  simp only [List.getElem?_take, firstTokens, List.getElem?_concat_length] at nth
  rw [if_pos (Nat.lt_succ_self _)] at nth
  intro next
  have same : next = (l.perform requests).2.next.1 := getD_of_continued nth.symm
  rw [same]
  exact steady.nextOnLine_eq_none_iff (inLine (.inr some))

/-- After a token and the comment that ends its line, there is none on the line, and the token of the
next line is not lost. -/
example :
    let l := ofSource (.ofDecoded false "a /* \n */ // b\nc".toList) .unknown .standard false
    (l.perform [.next, .nextOnLine, .peek, .nextOnLine, .next, .next, .next]).1.map Token.lexeme =
      ["a".toList, "c".toList, [], []] := by
  decide +kernel

end Lexer

end CPreprocessor
