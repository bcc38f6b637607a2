/-
# Parts of a file

A file can be read up to a line end as if nothing followed it, where reading comes to a
stop before that line end (`Lexer.Within`): the part gives the same items
(`Within.item`), and where the part has no more items, the lexer of the whole file goes
on with what follows the line end (`Lexer.past`).
-/
import CPreprocessor.Proofs.Guard.Consistent
import CPreprocessor.Proofs.Lexing.Stops

namespace CPreprocessor

namespace Source

/-- The source up to an index. -/
def upTo (source : Source) (stop : Nat) : Source where
  text := source.text.take stop
  places := source.places.extract 0 stop
  finish := if source.places.size < stop then source.finish else {}

theorem place_upTo (source : Source) {stop n : Nat} (inside : n < stop) :
    (source.upTo stop).place n = source.place n := by
  simp only [place, upTo, Array.getElem?_extract, Nat.sub_zero, Nat.zero_add]
  by_cases known : n < source.places.size
  · rw [if_pos (by omega), Array.getElem?_eq_getElem known]
    rfl
  · rw [if_neg (by omega), if_pos (by omega), Array.getElem?_eq_none (Nat.not_lt.mp known)]

theorem position_upTo (source : Source) {stop n : Nat} (inside : n < stop) :
    (source.upTo stop).position n = source.position n :=
  congrArg Position.reported (source.place_upTo inside)

end Source

namespace Lexer

/-- The lexer of the source up to an index. -/
def upTo (l : Lexer) (stop : Nat) : Lexer :=
  { l with source := l.source.upTo stop, rest := l.rest.take (stop - l.index) }

/-- The lexer after `n` more characters, the last of which ended a line. -/
def past (l : Lexer) (n : Nat) : Lexer :=
  { l with
    rest := l.rest.drop n
    index := l.index + n
    atLineStart := true
    afterSpace := true }

/-- Nothing but white space and comments is left before `stop`; what is read next stands after it. -/
def Crosses (stop : Nat) (l : Lexer) : Prop :=
  l.skipGap true = (l.past (stop - l.index)).skipGap true

/-- The lexer stands in the part of its source before `stop`, which ends with a line feed, and reading
comes to a stop before that line feed. -/
structure Within (stop : Nat) (l : Lexer) : Prop where
  skips : l.keepsTrivia = false
  nothingPeeked : l.peeked = none
  closed : l.openComment = false
  line : ∃ part tail, l.rest = part ++ '\n' :: tail ∧ l.index + part.length + 1 = stop
    ∧ stopsAt l.language part.length l.rest = true

/-- Reading has gone on inside the part. After the end of the part the same is left. -/
structure GoesTo (stop : Nat) (l after : Lexer) : Prop where
  within : after.Within stop
  past : after.past (stop - after.index) = l.past (stop - l.index)

variable {stop : Nat} {l : Lexer}

theorem GoesTo.trans {mid after : Lexer} (first : l.GoesTo stop mid) (second : mid.GoesTo stop after) :
    l.GoesTo stop after :=
  ⟨second.within, second.past.trans first.past⟩

theorem Crosses.index_le (crosses : l.Crosses stop) (inside : l.index ≤ stop) :
    stop ≤ (l.skipGap true).index := by
  rw [crosses]
  simp only [skipGap, past]
  omega

/-- After the end of the part it does not matter what the lexer has read of it. -/
theorem past_moved {n : Nat} (inside : l.index + n ≤ stop) (atLineStart afterSpace : Bool) :
    ({ l with rest := l.rest.drop n, index := l.index + n, atLineStart, afterSpace } : Lexer).past
        (stop - (l.index + n)) = l.past (stop - l.index) := by
  have rest : n + (stop - (l.index + n)) = stop - l.index := by omega
  have index : l.index + n + (stop - (l.index + n)) = l.index + (stop - l.index) := by omega
  simp only [past, List.drop_drop, rest, index]

/-- What is left of the part. -/
theorem rest_upTo {part tail : Text} (rest : l.rest = part ++ '\n' :: tail)
    (index : l.index + part.length + 1 = stop) : (l.upTo stop).rest = part ++ ['\n'] := by
  have length : stop - l.index = (part ++ ['\n']).length := by
    rw [List.length_append, List.length_singleton]
    omega
  have split : part ++ '\n' :: tail = part ++ ['\n'] ++ tail := by simp
  simp only [upTo, rest, length]
  rw [split, List.take_left]

theorem take_upTo (here : l.index < stop) (kind : TokenKind) {n : Nat} (inside : n ≤ stop - l.index)
    (error : Option LexError) :
    (l.upTo stop).take kind n error
      = ((l.take kind n error).1, (l.take kind n error).2.upTo stop) := by
  have place : (l.upTo stop).source.position l.index = l.source.position l.index :=
    l.source.position_upTo here
  have lexeme : (l.upTo stop).rest.take n = l.rest.take n := by
    simp only [upTo, List.take_take, Nat.min_eq_left inside]
  have rest : (l.upTo stop).rest.drop n = (l.rest.drop n).take (stop - (l.index + n)) := by
    simp only [upTo, List.drop_take, Nat.sub_add_eq]
  simp only [take, upTo] at place lexeme rest ⊢
  rw [place, lexeme, rest]

namespace Within

variable (within : l.Within stop)
include within

theorem index_lt : l.index < stop := by
  obtain ⟨part, tail, rest, index, stops⟩ := within.line
  omega

/-- A gap goes over the end of the part, or it ends inside. -/
theorem skipGap (acrossLines : Bool) :
    (acrossLines = true ∧ l.Crosses stop
        ∧ ((l.upTo stop).skipGap true).rest = []) ∨
      (l.GoesTo stop (l.skipGap acrossLines)
        ∧ (l.upTo stop).skipGap acrossLines = (l.skipGap acrossLines).upTo stop
        ∧ (Gap.starts (l.skipGap acrossLines).rest = false
          ∨ acrossLines = false ∧ Text.first (l.skipGap acrossLines).rest = '\n')) := by
  obtain ⟨part, tail, rest, index, stops⟩ := within.line
  have cut := rest_upTo rest index
  rw [rest] at stops
  obtain ⟨rfl, crossed⟩ | ends := Gap.read_line acrossLines stops
  · left
    have length : stop - l.index = part.length + 1 := by omega
    have dropped (n : Nat) : (part ++ '\n' :: tail).drop (part.length + 1 + n) = tail.drop n := by
      rw [← List.drop_drop, ← List.drop_drop, List.drop_left]
      rfl
    have left : (part ++ '\n' :: tail).drop (part.length + 1) = tail := dropped 0
    refine ⟨rfl, ?_, ?_⟩
    · have moved : part.length + 1 + (Gap.read true tail).length ≠ 0 := by omega
      simp only [Crosses, Lexer.skipGap, past, rest, crossed.whole, Gap.after, length, left, dropped, moved,
        Nat.add_assoc l.index (part.length + 1), Bool.true_or, Bool.or_true, ne_eq,
        not_false_eq_true, decide_true]
    · simp only [Lexer.skipGap, cut, crossed.line]
      simp
  · right
    obtain ⟨gap, later, rfl, length, stopsLater, bare⟩ := ends.later
    have left : (gap ++ later ++ '\n' :: tail).drop gap.length = later ++ '\n' :: tail := by
      rw [List.append_assoc, List.drop_left]
    have after : (l.skipGap acrossLines).rest = later ++ '\n' :: tail := by
      simp only [Lexer.skipGap, rest, length, left]
    have closed : (l.skipGap acrossLines).openComment = false := by
      simp only [Lexer.skipGap, rest, ends.closed, within.closed, Bool.or_self]
    have here : (l.skipGap acrossLines).index + later.length + 1 = stop := by
      simp only [Lexer.skipGap, rest, length, List.length_append] at index ⊢
      omega
    refine ⟨⟨⟨within.skips, within.nothingPeeked, closed, later, tail, after, here,
      after ▸ stopsLater⟩, ?_⟩, ?_, after ▸ bare⟩
    · have moved := past_moved (l := l) (show l.index + gap.length ≤ stop by
        rw [List.length_append] at index; omega)
        (l.atLineStart || (Gap.read acrossLines l.rest).newline) (l.afterSpace || gap.length ≠ 0)
      simpa only [Lexer.skipGap, rest, length, ends.closed, within.closed, Bool.or_self] using moved
    · have same := ends.line
      have dropped : (gap ++ later ++ ['\n']).drop gap.length
          = (later ++ '\n' :: tail).take (stop - (l.index + gap.length)) := by
        have short : stop - (l.index + gap.length) = (later ++ ['\n']).length := by
          simp only [List.length_append, List.length_singleton] at index ⊢
          omega
        have split : later ++ '\n' :: tail = later ++ ['\n'] ++ tail := by simp
        rw [short, split, List.take_left, List.append_assoc, List.drop_left]
      simp only [Lexer.skipGap, cut, ← same, length]
      simp only [upTo, rest, length, left, dropped]

/-- A lexeme of the part is read in the part. -/
theorem takeLexeme (bare : Gap.starts l.rest = false) :
    l.GoesTo stop l.takeLexeme.2 ∧ l.takeLexeme.1.isEnd = false
      ∧ (l.upTo stop).takeLexeme = (l.takeLexeme.1, l.takeLexeme.2.upTo stop) := by
  obtain ⟨part, tail, rest, index, stops⟩ := within.line
  have cut := rest_upTo rest index
  rw [rest] at stops bare
  obtain ⟨lexeme, later, rfl, length, stopsLater⟩ := stopsAt_lexeme bare stops
  have inside : lexeme.length ≤ (lexeme ++ later).length := by
    rw [List.length_append]
    omega
  have same := Lexeme.read_line (length ▸ inside)
  have left : (lexeme ++ later ++ '\n' :: tail).drop lexeme.length = later ++ '\n' :: tail := by
    rw [List.append_assoc, List.drop_left]
  have taken : l.takeLexeme
      = l.take (Lexeme.read l.language l.rest).kind lexeme.length (Lexeme.read l.language l.rest).error := by
    unfold Lexer.takeLexeme
    simp only [if_neg (show l.rest ≠ [] by rw [rest]; simp)]
    rw [rest, length]
  have takenCut : (l.upTo stop).takeLexeme
      = (l.upTo stop).take (Lexeme.read l.language l.rest).kind lexeme.length
        (Lexeme.read l.language l.rest).error := by
    unfold Lexer.takeLexeme
    simp only [if_neg (show (l.upTo stop).rest ≠ [] by rw [cut]; simp)]
    rw [cut]
    show (l.upTo stop).take (Lexeme.read l.language _).kind (Lexeme.read l.language _).length
      (Lexeme.read l.language _).error = _
    rw [← same, length, rest]
  rw [taken, takenCut]
  rw [List.length_append] at index
  refine ⟨⟨⟨within.skips, within.nothingPeeked, within.closed, later, tail, ?_, ?_, ?_⟩, ?_⟩, ?_, ?_⟩
  · simp only [take, rest, left]
  · simp only [take]
    omega
  · simp only [take, rest, left]
    exact stopsLater
  · exact past_moved (by omega) false false
  · have kind := (Lexeme.kind_read_ne l.language l.rest).2.2
    simpa only [take, Token.isEnd, beq_eq_false_iff_ne, decide_eq_false_iff_not] using kind
  · exact take_upTo within.index_lt _ (by omega) _

/-- The next token of the line is read in the part. -/
theorem nextOnLine :
    l.GoesTo stop l.nextOnLine.2
      ∧ (l.upTo stop).nextOnLine = (l.nextOnLine.1, l.nextOnLine.2.upTo stop) := by
  obtain ⟨across, -⟩ | ⟨skipped, same, bare⟩ := within.skipGap false
  · cases across
  · have fresh : (l.upTo stop).peeked = none := within.nothingPeeked
    obtain ⟨part, tail, rest, index, -⟩ := skipped.within.line
    have cut := rest_upTo rest index
    have ends : (decide ((l.skipGap false).rest = [])
          || decide ((l.skipGap false).rest.head? = some '\n'))
        = (decide (((l.skipGap false).upTo stop).rest = [])
          || decide (((l.skipGap false).upTo stop).rest.head? = some '\n')) := by
      rw [rest, cut]
      cases part <;> simp
    simp only [Lexer.nextOnLine, within.nothingPeeked, fresh, same, ← ends]
    split
    · exact ⟨skipped, rfl⟩
    · rename_i more
      obtain bare | ⟨-, feed⟩ := bare
      · obtain ⟨after, -, taken⟩ := skipped.within.takeLexeme bare
        exact ⟨skipped.trans after, by rw [taken]⟩
      · exfalso
        rw [rest] at feed more
        cases part with
        | nil => exact more rfl
        | cons c part => simp [show c = '\n' from feed] at more

/-- The rest of the line is read in the part. -/
theorem restOfLine :
    l.GoesTo stop l.restOfLine.2
      ∧ (l.upTo stop).restOfLine = (l.restOfLine.1, l.restOfLine.2.upTo stop) := by
  induction more : l.size using Nat.strongRecOn generalizing l with
  | ind size ih =>
    obtain ⟨after, same⟩ := within.nextOnLine
    cases found : l.nextOnLine.1 with
    | none =>
      have foundCut : (l.upTo stop).nextOnLine.1 = none := by rw [same, found]
      rw [restOfLine_of_none found, restOfLine_of_none foundCut, same]
      exact ⟨after, rfl⟩
    | some token =>
      have later := ih _ (more ▸ size_nextOnLine_lt found) after.within rfl
      have foundCut : (l.upTo stop).nextOnLine.1 = some token := by rw [same, found]
      rw [restOfLine_of_some found, restOfLine_of_some foundCut, same]
      exact ⟨after.trans later.1, by rw [later.2]⟩

/-- The next item of the file stands after the part, where the part ends, or it is the next item of the
part. -/
theorem item :
    (l.Crosses stop ∧ ∃ final after, (l.upTo stop).item = (.finish final, after)) ∨
      (l.GoesTo stop l.item.2 ∧ (l.upTo stop).item = (l.item.1, l.item.2.upTo stop)
        ∧ ∀ final, l.item.1 ≠ .finish final) := by
  have fresh : (l.upTo stop).peeked = none := within.nothingPeeked
  have skips : (l.upTo stop).keepsTrivia = false := within.skips
  have next : l.next = (l.skipGap true).takeLexeme := by
    simp only [Lexer.next, within.nothingPeeked, read, within.skips, Bool.false_eq_true, if_false]
  have nextCut : (l.upTo stop).next = ((l.upTo stop).skipGap true).takeLexeme := by
    simp only [Lexer.next, fresh, read, skips, Bool.false_eq_true, if_false]
  obtain ⟨-, crossed, nothing⟩ | ⟨skipped, same, bare⟩ := within.skipGap true
  · left
    have ends : (l.upTo stop).next.1.isEnd = true := by
      rw [nextCut, Lexer.takeLexeme, if_pos nothing]
      rfl
    exact ⟨crossed, _, _, item_of_isEnd ends⟩
  · right
    have bare : Gap.starts (l.skipGap true).rest = false := by
      obtain bare | ⟨impossible, -⟩ := bare
      · exact bare
      · cases impossible
    obtain ⟨after, more, taken⟩ := skipped.within.takeLexeme bare
    have after := skipped.trans after
    rw [← next] at after more taken
    rw [same, taken] at nextCut
    have moreCut : (l.upTo stop).next.1.isEnd = false := by rw [nextCut, more]
    cases starts : Reader.startsDirective l.next.1 with
    | true =>
      obtain ⟨line, lineCut⟩ := after.within.restOfLine
      rw [item_of_startsDirective more starts,
        item_of_startsDirective moreCut (by rw [nextCut, starts]), nextCut]
      simp only [Lexer.directive, lineCut]
      exact ⟨after.trans line, trivial, fun final same => by cases same⟩
    | false =>
      rw [item_of_token more starts, item_of_token moreCut (by rw [nextCut, starts]), nextCut]
      exact ⟨after, rfl, fun final same => by cases same⟩

/-- The items of the part are read in the file, and then what follows the part comes next. -/
theorem reads {items : List Item} {last after : Lexer} {final : { token : Token // token.isEnd = true }}
    (reads : (l.upTo stop).Reads items last) (ends : last.item = (.finish final, after)) :
    ∃ here, l.Reads items here ∧ here.skipGap true = (l.past (stop - l.index)).skipGap true := by
  generalize same : l.upTo stop = part at reads
  induction reads generalizing l with
  | done part =>
    subst same
    obtain ⟨crossed, -⟩ | ⟨-, read, more⟩ := within.item
    · exact ⟨l, .done l, crossed⟩
    · rw [ends] at read
      exact absurd (Prod.ext_iff.mp read).1.symm (more final)
  | @token part rest last token items found more ih =>
    subst same
    obtain ⟨-, final', after', finish⟩ | ⟨goesTo, read, -⟩ := within.item
    · rw [finish] at found
      cases found
    · rw [found, Prod.mk.injEq] at read
      obtain ⟨here, reads, crossed⟩ := ih goesTo.within ends read.2.symm
      exact ⟨here, .token (Prod.ext read.1.symm rfl) reads, goesTo.past ▸ crossed⟩
  | @directive part rest last d items found more ih =>
    subst same
    obtain ⟨-, final', after', finish⟩ | ⟨goesTo, read, -⟩ := within.item
    · rw [finish] at found
      cases found
    · rw [found, Prod.mk.injEq] at read
      obtain ⟨here, reads, crossed⟩ := ih goesTo.within ends read.2.symm
      exact ⟨here, .directive (Prod.ext read.1.symm rfl) reads, goesTo.past ▸ crossed⟩

/-- Lines are presented in the part as in the file. -/
theorem presentLine (line : Nat) (name : Option Text) :
    (l.presentLine line name).Within stop
      ∧ (l.upTo stop).presentLine line name = (l.presentLine line name).upTo stop := by
  refine ⟨⟨within.skips, within.nothingPeeked, within.closed, within.line⟩, ?_⟩
  obtain ⟨part, tail, rest, index, -⟩ := within.line
  have first : (l.upTo stop).rest.head? = l.rest.head? := by
    rw [rest_upTo rest index, rest]
    cases part <;> rfl
  have place : (l.upTo stop).source.position (l.upTo stop).index = l.source.position l.index :=
    l.source.position_upTo within.index_lt
  simp only [Lexer.presentLine, place, first]
  rfl

end Within

end Lexer

end CPreprocessor
