/-
# Files that look alike

Two lexers are alike under a view if what is left of their sources is the same and the
places of it look the same. They give tokens that look the same and stay alike, token
by token, line by line and item by item. White space before the first token of a line
may be hidden by the view; after a token it is seen.
-/
import CPreprocessor.Proofs.Places.Token
import CPreprocessor.Proofs.Reading.Items

namespace CPreprocessor

namespace Directive

/-- The directive as it is seen. White space between its arguments is seen by every view. -/
def seen (v : View) (d : Directive) : Directive where
  hash := d.hash.seen v
  name := d.name.map (Token.seen v)
  args := d.args.map (Token.seen v.spaced)

@[simp] theorem kind_seen (v : View) (d : Directive) : (d.seen v).kind = d.kind := by
  unfold kind seen
  cases d.name <;> rfl

end Directive

theorem Guard.opening?_seen (v : View) (d : Directive) : opening? (d.seen v) = opening? d := by
  have first : ((d.seen v).args.head?.filter Token.isName).map Token.lexeme
      = (d.args.head?.filter Token.isName).map Token.lexeme := by
    simp only [Directive.seen, List.head?_map]
    cases d.args.head? with
    | none => rfl
    | some token =>
      by_cases isName : token.isName = true <;> simp [Option.filter, isName]
  simp only [opening?, Directive.kind_seen, first]

/-- The item as it is seen. -/
def Item.seen (v : View) : Item → Item
  | .token given => .token (given.seen v)
  | .directive d => .directive (d.seen v)
  | .finish final => .finish ⟨final.1.seen v, final.2⟩

namespace Lexer

/-- The same is left to read in both files, and its places look the same. Nothing was looked at and
not taken. -/
structure Alike (v : View) (l l' : Lexer) : Prop where
  language : l.language = l'.language
  skips : l.keepsTrivia = false ∧ l'.keepsTrivia = false
  nothingPeeked : l.peeked = none ∧ l'.peeked = none
  rest : l.rest = l'.rest
  atLineStart : l.atLineStart = l'.atLineStart
  afterSpace : v.space = true → l.afterSpace = l'.afterSpace
  openComment : l.openComment = l'.openComment
  file : v.file l.file = v.file l'.file
  presented : v.file l.presented = v.file l'.presented
  lineShift : v.line = true → l.lineShift = l'.lineShift
  line : v.line = true → ∀ n,
    (l.source.position (l.index + n)).line = (l'.source.position (l'.index + n)).line
  column : v.column = true → ∀ n,
    (l.source.position (l.index + n)).column = (l'.source.position (l'.index + n)).column
  offset : v.offset = true → ∀ n,
    (l.source.position (l.index + n)).offset = (l'.source.position (l'.index + n)).offset

/-- Files with the same source look alike if their names do. -/
theorem alike_ofSource {v : View} (source : Source) (language : Language) {file file' : FileRef}
    (same : v.file file = v.file file') :
    Alike v (.ofSource source file language false) (.ofSource source file' language false) := by
  constructor <;> intros <;> first | rfl | exact same | exact ⟨rfl, rfl⟩

namespace Alike

variable {v : View} {l l' : Lexer} (same : Alike v l l')
include same

theorem symm : Alike v l' l where
  language := same.language.symm
  skips := same.skips.symm
  nothingPeeked := same.nothingPeeked.symm
  rest := same.rest.symm
  atLineStart := same.atLineStart.symm
  afterSpace := fun seen => (same.afterSpace seen).symm
  openComment := same.openComment.symm
  file := same.file.symm
  presented := same.presented.symm
  lineShift := fun seen => (same.lineShift seen).symm
  line := fun seen n => (same.line seen n).symm
  column := fun seen n => (same.column seen n).symm
  offset := fun seen n => (same.offset seen n).symm

theorem trans {l'' : Lexer} (more : Alike v l' l'') : Alike v l l'' where
  language := same.language.trans more.language
  skips := ⟨same.skips.1, more.skips.2⟩
  nothingPeeked := ⟨same.nothingPeeked.1, more.nothingPeeked.2⟩
  rest := same.rest.trans more.rest
  atLineStart := same.atLineStart.trans more.atLineStart
  afterSpace := fun seen => (same.afterSpace seen).trans (more.afterSpace seen)
  openComment := same.openComment.trans more.openComment
  file := same.file.trans more.file
  presented := same.presented.trans more.presented
  lineShift := fun seen => (same.lineShift seen).trans (more.lineShift seen)
  line := fun seen n => (same.line seen n).trans (more.line seen n)
  column := fun seen n => (same.column seen n).trans (more.column seen n)
  offset := fun seen n => (same.offset seen n).trans (more.offset seen n)

/-- Tokens of the same kind and length look the same. -/
theorem take (kind : TokenKind) (n : Nat) (error : Option LexError) :
    (l.take kind n error).1.seen v = (l'.take kind n error).1.seen v
      ∧ Alike v.spaced (l.take kind n error).2 (l'.take kind n error).2 := by
  have line : v.lineOf (lineNumber ((l.source.position l.index).line + l.lineShift))
      = v.lineOf (lineNumber ((l'.source.position l'.index).line + l'.lineShift)) := by
    unfold View.lineOf
    split
    · rename_i seen
      rw [same.lineShift seen, show (l.source.position l.index).line = _ from same.line seen 0]
      rfl
    · rfl
  have column : v.columnOf (l.source.position l.index).column
      = v.columnOf (l'.source.position l'.index).column := by
    unfold View.columnOf
    split
    · rename_i seen
      exact same.column seen 0
    · rfl
  have offset : v.offsetOf (l.source.position l.index).offset
      = v.offsetOf (l'.source.position l'.index).offset := by
    unfold View.offsetOf
    split
    · rename_i seen
      exact same.offset seen 0
    · rfl
  have space : (v.space && l.afterSpace) = (v.space && l'.afterSpace) := by
    cases seen : v.space with
    | false => rfl
    | true => rw [same.afterSpace seen]
  refine ⟨?_, ?_⟩
  · simp only [Lexer.take, Token.seen, same.rest, same.atLineStart, same.presented, line, column,
      offset, space]
  · exact {
      language := same.language
      skips := same.skips
      nothingPeeked := same.nothingPeeked
      rest := congrArg (List.drop n) same.rest
      atLineStart := rfl
      afterSpace := fun _ => rfl
      openComment := same.openComment
      file := same.file
      presented := same.presented
      lineShift := same.lineShift
      line := fun seen k => by
        simpa only [Lexer.take, Nat.add_assoc] using same.line seen (n + k)
      column := fun seen k => by
        simpa only [Lexer.take, Nat.add_assoc] using same.column seen (n + k)
      offset := fun seen k => by
        simpa only [Lexer.take, Nat.add_assoc] using same.offset seen (n + k) }

theorem skipGap (acrossLines : Bool) :
    Alike v (l.skipGap acrossLines) (l'.skipGap acrossLines) := by
  have gap : Gap.read acrossLines l.rest = Gap.read acrossLines l'.rest := by rw [same.rest]
  constructor
  · exact same.language
  · exact same.skips
  · exact same.nothingPeeked
  · simp only [Lexer.skipGap, same.rest]
  · simp only [Lexer.skipGap, gap, same.atLineStart]
  · intro seen
    simp only [Lexer.skipGap, gap, same.afterSpace seen]
  · simp only [Lexer.skipGap, gap, same.openComment]
  · exact same.file
  · exact same.presented
  · exact same.lineShift
  · intro seen k
    simpa only [Lexer.skipGap, gap, Nat.add_assoc] using
      same.line seen ((Gap.read acrossLines l'.rest).length + k)
  · intro seen k
    simpa only [Lexer.skipGap, gap, Nat.add_assoc] using
      same.column seen ((Gap.read acrossLines l'.rest).length + k)
  · intro seen k
    simpa only [Lexer.skipGap, gap, Nat.add_assoc] using
      same.offset seen ((Gap.read acrossLines l'.rest).length + k)

theorem takeLexeme :
    l.takeLexeme.1.seen v = l'.takeLexeme.1.seen v
      ∧ Alike v.spaced l.takeLexeme.2 l'.takeLexeme.2 := by
  unfold Lexer.takeLexeme
  rw [same.rest, same.language]
  split
  · have ended := same.take .endOfFile 0 (if l'.openComment then some .unterminatedComment else none)
    simp only [Lexer.takeEnd, same.openComment]
    refine ⟨?_, { ended.2 with openComment := rfl }⟩
    have seen := congrArg (fun token : Token => { token with atLineStart := true }) ended.1
    exact seen
  · exact same.take _ _ _

theorem next :
    l.next.1.seen v = l'.next.1.seen v ∧ Alike v.spaced l.next.2 l'.next.2 := by
  simp only [Lexer.next, same.nothingPeeked.1, same.nothingPeeked.2, Lexer.read, same.skips.1,
    same.skips.2, Bool.false_eq_true, if_false]
  exact (same.skipGap true).takeLexeme

omit same in
theorem of_spaced (same : Alike v.spaced l l') : Alike v l l' :=
  { same with afterSpace := fun _ => same.afterSpace rfl }

theorem nextOnLine :
    l.nextOnLine.1.map (Token.seen v) = l'.nextOnLine.1.map (Token.seen v)
      ∧ Alike v l.nextOnLine.2 l'.nextOnLine.2 := by
  have skipped := same.skipGap false
  simp only [Lexer.nextOnLine, same.nothingPeeked.1, same.nothingPeeked.2, skipped.rest]
  split
  · exact ⟨rfl, skipped⟩
  · have taken := skipped.takeLexeme
    exact ⟨congrArg some taken.1, taken.2.of_spaced⟩

theorem restOfLine :
    l.restOfLine.1.map (Token.seen v) = l'.restOfLine.1.map (Token.seen v)
      ∧ Alike v l.restOfLine.2 l'.restOfLine.2 := by
  induction more : l.size using Nat.strongRecOn generalizing l l' with
  | ind size ih =>
    obtain ⟨given, after⟩ := same.nextOnLine
    cases found : l.nextOnLine.1 with
    | none =>
      rw [found, Option.map_none, eq_comm, Option.map_eq_none_iff] at given
      rw [restOfLine_of_none found, restOfLine_of_none given]
      exact ⟨rfl, after⟩
    | some token =>
      rw [found, Option.map_some, eq_comm, Option.map_eq_some_iff] at given
      obtain ⟨token', found', looks⟩ := given
      have shorter := size_nextOnLine_lt found
      have rest := ih _ (more ▸ shorter) after rfl
      rw [restOfLine_of_some found, restOfLine_of_some found']
      exact ⟨by rw [List.map_cons, List.map_cons, looks, rest.1], rest.2⟩

theorem presentLine (line : Nat) (name : Option Text) :
    Alike v (l.presentLine line name) (l'.presentLine line name) := by
  have presented : v.file (l.presentLine line name).presented
      = v.file (l'.presentLine line name).presented := by
    cases name with
    | none => exact same.presented
    | some shown =>
      have file := same.file
      simp only [View.file, FileRef.mk.injEq] at file
      simp only [Lexer.presentLine, View.file, file.1, file.2.2]
  refine { same with presented, lineShift := fun seen => ?_ }
  have here : (l.source.position l.index).line = (l'.source.position l'.index).line :=
    same.line seen 0
  simp only [Lexer.presentLine, same.rest, here]

/-- The next items of files that look alike look alike. -/
theorem item :
    l.item.1.seen v = l'.item.1.seen v ∧ Alike v.spaced l.item.2 l'.item.2 := by
  obtain ⟨given, after⟩ := same.next
  have isEnd : l.next.1.isEnd = l'.next.1.isEnd := Token.congr_seen Token.isEnd (fun _ => rfl) given
  have starts : Reader.startsDirective l.next.1 = Reader.startsDirective l'.next.1 := by
    have calls : (l.next.1.calls = []) = (l'.next.1.calls = []) := by
      have seen := congrArg (fun token => token.calls.length) given
      simp only [Token.seen, List.length_map] at seen
      rw [← List.length_eq_zero_iff, ← List.length_eq_zero_iff, seen]
    have isHash : l.next.1.isHash = l'.next.1.isHash := Token.congr_seen Token.isHash (fun _ => rfl) given
    have first : l.next.1.atLineStart = l'.next.1.atLineStart :=
      Token.congr_seen Token.atLineStart (fun _ => rfl) given
    simp only [Reader.startsDirective, isHash, first, calls]
  cases ends : l.next.1.isEnd with
  | true =>
    rw [item_of_isEnd ends, item_of_isEnd (isEnd ▸ ends)]
    exact ⟨by simp only [Item.seen, given], after⟩
  | false =>
    have ends' := isEnd ▸ ends
    cases opens : Reader.startsDirective l.next.1 with
    | true =>
      have opens' := starts ▸ opens
      have line := after.restOfLine
      rw [item_of_startsDirective ends opens, item_of_startsDirective ends' opens']
      refine ⟨?_, line.2⟩
      have name := congrArg List.head? line.1
      simp only [List.head?_map] at name
      have seenName : l.next.2.restOfLine.1.head?.map (Token.seen v)
          = l'.next.2.restOfLine.1.head?.map (Token.seen v) := by
        rw [← List.head?_map, ← List.head?_map, Token.map_seen_of_spaced line.1]
      have args := congrArg (List.drop 1) line.1
      simp only [← List.map_drop] at args
      simp only [Item.seen, Directive.seen, directive, given, seenName, args]
    | false =>
      have opens' := starts ▸ opens
      rw [item_of_token ends opens, item_of_token ends' opens']
      exact ⟨by simp only [Item.seen, given], after⟩

end Alike

end Lexer

end CPreprocessor
