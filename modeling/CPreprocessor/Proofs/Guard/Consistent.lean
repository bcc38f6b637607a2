/-
# Readers know the guards of their files

Whatever a reader has been through, the guard of each open file is what the lines of
the file so far say, each file has opened the innermost conditionals and none of the
others, and the guards that are recorded are guards of whole files. This is what a step
of reading preserves (`Consistent.step`), and nothing that macro expansion does between
two steps touches it.
-/
import CPreprocessor.Proofs.Directive.Layers
import CPreprocessor.Proofs.Guard.Verdict
import CPreprocessor.Proofs.Places.Lexer

namespace CPreprocessor

/-- The view that shows nothing but what tokens are. -/
def View.blind : View :=
  { number := false, name := false, line := false, column := false, offset := false, space := false,
    level := false, reports := false }

/-! ## Verdicts do not depend on places -/

namespace Guard

variable (v : View) (base : Nat) (state : Guard × Nat) (item : Item)

theorem follow_seen : follow base state (item.seen v) = follow base state item := by
  cases item with
  | token given => rfl
  | finish final => rfl
  | directive d =>
    simp only [Item.seen, follow, depthAfter, Directive.kind_seen, afterDirective, opening?_seen]
    rfl

theorem foldl_follow_seen (items : List Item) :
    (items.map (Item.seen v)).foldl (follow base) state = items.foldl (follow base) state := by
  rw [List.foldl_map]
  simp only [follow_seen]

end Guard

namespace Lexer

/-- Files that look alike are read alike. -/
theorem Reads.of_alike {v : View} {l l' last : Lexer} {items : List Item}
    (reads : l.Reads items last) (same : l.Alike v l') :
    ∃ items' last', l'.Reads items' last' ∧ items'.map (Item.seen v) = items.map (Item.seen v)
      ∧ last.Alike v last' := by
  induction reads generalizing l' with
  | done l => exact ⟨[], l', .done l', rfl, same⟩
  | @token l after last token items here more ih =>
    obtain ⟨looks, rest⟩ := same.item
    rw [here] at looks rest
    cases there : l'.item with
    | mk given after' =>
      rw [there] at looks rest
      obtain ⟨items', last', reads, list, ends⟩ := ih rest.of_spaced
      cases given with
      | token token' =>
        exact ⟨_, last', .token there reads, by rw [List.map_cons, List.map_cons, list, looks], ends⟩
      | directive d => cases looks
      | finish final => cases looks
  | @directive l after last d items here more ih =>
    obtain ⟨looks, rest⟩ := same.item
    rw [here] at looks rest
    cases there : l'.item with
    | mk given after' =>
      rw [there] at looks rest
      obtain ⟨items', last', reads, list, ends⟩ := ih rest.of_spaced
      cases given with
      | directive d' =>
        exact ⟨_, last', .directive there reads, by rw [List.map_cons, List.map_cons, list, looks],
          ends⟩
      | token token' => cases looks
      | finish final => cases looks

/-- Presenting lines in another way does not matter to what is not seen of them. -/
theorem Alike.blind_presentLine {l l' : Lexer} (same : l.Alike .blind l') (line : Nat)
    (name : Option Text) : l.Alike .blind (l'.presentLine line name) :=
  { same with presented := rfl, lineShift := nofun }

/-- Whether a file is guarded does not depend on its name or its places. -/
theorem IsGuarded.of_alike {v : View} {l l' : Lexer} {name : Text} (guarded : l.IsGuarded name)
    (same : l.Alike v l') : l'.IsGuarded name := by
  obtain ⟨items, last, final, after, reads, finish, closed⟩ := guarded
  obtain ⟨items', last', reads', list, ends⟩ := reads.of_alike same
  have looks := ends.item.1
  rw [finish] at looks
  cases there : last'.item with
  | mk given after' =>
    rw [there] at looks
    cases given with
    | token token => cases looks
    | directive d => cases looks
    | finish final' =>
      refine ⟨items', last', final', after', reads', there, ?_⟩
      rw [← Guard.foldl_follow_seen v, list, Guard.foldl_follow_seen]
      exact closed

end Lexer

/-! ## What is known of one file -/

namespace Guard

/-- What a guard can be where `depth` conditionals are open, `base` of them from other files. -/
def Fits (base depth : Nat) : Guard → Prop
  | .unread | .closed _ => depth = base
  | .inside _ opened => opened = base + 1 ∧ base < depth
  | .absent => True

theorem fits_follow {base : Nat} {state : Guard × Nat} (fits : state.1.Fits base state.2)
    (item : Item) : (follow base state item).1.Fits base (follow base state item).2 := by
  obtain ⟨guard, depth⟩ := state
  cases item with
  | finish final => exact fits
  | token given =>
    cases guard with
    | unread => trivial
    | absent => trivial
    | closed name => trivial
    | inside name opened => exact fits
  | directive d =>
    cases guard with
    | absent => trivial
    | closed name => trivial
    | unread =>
      simp only [Fits] at fits
      subst fits
      simp only [follow, afterDirective]
      split
      · split
        · rename_i more
          simp only [Fits, more]
          exact ⟨trivial, Nat.lt_succ_self _⟩
        · trivial
      · trivial
    | inside name opened =>
      obtain ⟨rfl, inside⟩ : opened = base + 1 ∧ base < depth := fits
      simp only [follow, afterDirective]
      by_cases outermost : depth = base + 1
      · subst outermost
        have above : base < base + 1 + 1 := by omega
        cases kind : d.kind <;> simp [Fits, depthAfter, kind, DirectiveKind.opens, above]
      · have deeper : base + 1 < depth := by omega
        simp only [if_neg outermost, Fits, depthAfter, true_and]
        split
        · exact Nat.lt_succ_of_lt inside
        · split <;> omega

theorem fits_foldl_follow (base : Nat) (items : List Item) (state : Guard × Nat)
    (fits : state.1.Fits base state.2) :
    (items.foldl (follow base) state).1.Fits base (items.foldl (follow base) state).2 := by
  induction items generalizing state with
  | nil => exact fits
  | cons item rest ih => exact ih _ (fits_follow fits item)

/-- The guard with the depth of its conditional counted from another one. -/
def shift (base : Nat) : Guard → Guard
  | .inside name depth => .inside name (depth + base)
  | guard => guard

/-- The verdict on a file does not depend on the conditionals around it. -/
theorem follow_shift (base : Nat) (state : Guard × Nat) (item : Item) :
    follow base (state.1.shift base, state.2 + base) item
      = ((follow 0 state item).1.shift base, (follow 0 state item).2 + base) := by
  obtain ⟨guard, depth⟩ := state
  cases item with
  | finish final => rfl
  | token given => cases guard <;> rfl
  | directive d =>
    have depths : depthAfter base (depth + base) (.directive d)
        = depthAfter 0 depth (.directive d) + base := by
      simp only [depthAfter]
      split
      · omega
      · by_cases inner : 0 < depth
        · simp only [inner, and_true, show base < depth + base by omega]
          split <;> omega
        · have : depth = 0 := by omega
          subst this
          simp
    simp only [follow, depths, Prod.mk.injEq, and_true]
    cases guard with
    | absent => rfl
    | closed name => rfl
    | unread =>
      simp only [shift, afterDirective]
      split
      · simp only [show (depthAfter 0 depth (.directive d) + base = depth + base + 1)
          = (depthAfter 0 depth (.directive d) = depth + 1) by apply propext; omega]
        split <;> rfl
      · rfl
    | inside name opened =>
      simp only [shift, afterDirective, Nat.add_right_cancel_iff, Nat.add_lt_add_iff_right]
      split
      · split
        all_goals first | rfl | (split <;> rfl)
      · rfl

theorem foldl_follow_shift (base : Nat) (items : List Item) (state : Guard × Nat) :
    items.foldl (follow base) (state.1.shift base, state.2 + base)
      = ((items.foldl (follow 0) state).1.shift base, (items.foldl (follow 0) state).2 + base) := by
  induction items generalizing state with
  | nil => rfl
  | cons item rest ih =>
    rw [List.foldl_cons, List.foldl_cons, follow_shift, ih]

end Guard

/-- The guard of a file is what its lines so far say; `depth` conditionals are open now. -/
def Frame.IsFollowed (frame : Frame) (depth : Nat) : Prop :=
  ∃ items l,
    (Lexer.ofSource frame.lexer.source frame.lexer.file frame.lexer.language false).Reads items l
    ∧ l.Alike .blind frame.lexer
    ∧ items.foldl (Guard.follow frame.conditionDepth) (.unread, frame.conditionDepth)
      = (frame.guard, depth)

namespace Lexer

theorem Reads.snoc {l mid last : Lexer} {items : List Item} {found : Item}
    (reads : l.Reads items mid) (here : mid.item = (found, last))
    (more : ∀ final, found ≠ .finish final) : l.Reads (items ++ [found]) last := by
  induction reads with
  | done l =>
    cases found with
    | token given => exact .token here (.done _)
    | directive d => exact .directive here (.done _)
    | finish final => exact absurd rfl (more final)
  | token first rest ih => exact .token first (ih here)
  | directive first rest ih => exact .directive first (ih here)

/-- What has been read of a file is the start of all that it has. -/
theorem Reads.exists_more {l mid last after : Lexer} {items all : List Item}
    {final : { token : Token // token.isEnd = true }} (reads : l.Reads items mid)
    (whole : l.Reads all last) (finish : last.item = (.finish final, after)) :
    ∃ more, all = items ++ more ∧ mid.Reads more last := by
  induction reads generalizing all with
  | done l => exact ⟨all, rfl, whole⟩
  | token here rest ih =>
    cases whole with
    | done => rw [here] at finish; cases finish
    | token here' rest' =>
      rw [here] at here'
      cases here'
      obtain ⟨more, rfl, later⟩ := ih rest'
      exact ⟨more, rfl, later⟩
    | directive here' rest' => rw [here] at here'; cases here'
  | directive here rest ih =>
    cases whole with
    | done => rw [here] at finish; cases finish
    | token here' rest' => rw [here] at here'; cases here'
    | directive here' rest' =>
      rw [here] at here'
      cases here'
      obtain ⟨more, rfl, later⟩ := ih rest'
      exact ⟨more, rfl, later⟩

end Lexer

namespace Frame

/-- A file that is opened has no line before it. -/
theorem isFollowed_of_start {frame : Frame} {source : Source} {file : FileRef} {language : Language}
    (start : frame.lexer = .ofSource source file language false) (unread : frame.guard = .unread) :
    frame.IsFollowed frame.conditionDepth := by
  refine ⟨[], _, .done _, ?_, by rw [unread]; rfl⟩
  rw [start]
  exact Lexer.alike_ofSource _ _ rfl

variable {frame : Frame} {depth : Nat}

theorem IsFollowed.skips (followed : frame.IsFollowed depth) : frame.lexer.keepsTrivia = false := by
  obtain ⟨items, l, -, same, -⟩ := followed
  exact same.skips.2

/-- A lexer looks like itself wherever nothing was looked at and not taken. -/
theorem IsFollowed.alike_self (followed : frame.IsFollowed depth) :
    frame.lexer.Alike .blind frame.lexer := by
  obtain ⟨items, l, -, same, -⟩ := followed
  exact same.symm.trans same

theorem IsFollowed.fits (followed : frame.IsFollowed depth) :
    frame.guard.Fits frame.conditionDepth depth := by
  obtain ⟨items, l, -, -, state⟩ := followed
  have fits := Guard.fits_foldl_follow frame.conditionDepth items (.unread, frame.conditionDepth) rfl
  rwa [state] at fits

/-- One more line is read. -/
theorem IsFollowed.after (followed : frame.IsFollowed depth) {found : Item} {rest lexer : Lexer}
    (here : frame.lexer.item = (found, rest)) (more : ∀ final, found ≠ .finish final)
    (same : rest.Alike .blind lexer)
    (stays : lexer.source = rest.source ∧ lexer.file = rest.file ∧ lexer.language = rest.language) :
    IsFollowed
      { frame with
        lexer, guard := (Guard.follow frame.conditionDepth (frame.guard, depth) found).1 }
      (Guard.follow frame.conditionDepth (frame.guard, depth) found).2 := by
  have stayed := Lexer.source_item followed.skips
  rw [here] at stayed
  obtain ⟨items, l, reads, looks, state⟩ := followed
  have next := looks.item
  rw [here] at next
  cases there : l.item with
  | mk found' rest' =>
    rw [there] at next
    have more' : ∀ final, found' ≠ .finish final := by
      rintro final rfl
      cases found with
      | finish final' => exact more final' rfl
      | token given => cases next.1
      | directive d => cases next.1
    refine ⟨items ++ [found'], rest', ?_, ?_, ?_⟩
    · show (Lexer.ofSource lexer.source lexer.file lexer.language false).Reads _ _
      rw [stays.1, stays.2.1, stays.2.2, show rest.source = _ from stayed.1,
        show rest.file = _ from stayed.2.1, show rest.language = _ from stayed.2.2]
      exact reads.snoc there more'
    · exact next.2.of_spaced.trans same
    · rw [List.foldl_append, state, List.foldl_cons, List.foldl_nil,
        ← Guard.follow_seen .blind _ _ found', next.1, Guard.follow_seen]

/-- A file that has been read to its end with its guard closed is guarded. -/
theorem IsFollowed.isGuarded (followed : frame.IsFollowed depth)
    {final : { token : Token // token.isEnd = true }} {rest : Lexer} {name : Text}
    (finish : frame.lexer.item = (.finish final, rest)) (closed : frame.guard = .closed name) :
    (Lexer.ofSource frame.lexer.source frame.lexer.file frame.lexer.language false).IsGuarded name := by
  obtain ⟨items, l, reads, looks, state⟩ := followed
  have next := looks.item.1
  rw [finish] at next
  cases there : l.item with
  | mk found after =>
    rw [there] at next
    cases found with
    | token given => cases next
    | directive d => cases next
    | finish final' =>
      refine ⟨items, l, final', after, reads, there, ?_⟩
      have shifted := Guard.foldl_follow_shift frame.conditionDepth items (.unread, 0)
      rw [Nat.zero_add] at shifted
      have same := (congrArg Prod.fst shifted).symm.trans (congrArg Prod.fst state)
      rw [closed] at same
      cases verdict : (items.foldl (Guard.follow 0) (.unread, 0)).1 with
      | closed other =>
        rw [verdict] at same
        exact same
      | unread => rw [verdict] at same; cases same
      | absent => rw [verdict] at same; cases same
      | inside other opened => rw [verdict] at same; cases same

/-- If the whole file is guarded and its guard has not been ruled out, it is the one that is known. -/
theorem IsFollowed.name_of_isGuarded (followed : frame.IsFollowed depth) {name known : Text}
    (guarded : (Lexer.ofSource frame.lexer.source frame.lexer.file frame.lexer.language
      false).IsGuarded name)
    (soFar : frame.guard.name? = some known) : known = name := by
  obtain ⟨items, l, reads, -, state⟩ := followed
  obtain ⟨all, last, final, after, whole, finish, closed⟩ := guarded
  obtain ⟨more, rfl, -⟩ := reads.exists_more whole finish
  have shifted := Guard.foldl_follow_shift frame.conditionDepth (items ++ more) (.unread, 0)
  rw [Nat.zero_add, List.foldl_append] at shifted
  have verdict : (more.foldl (Guard.follow frame.conditionDepth) (frame.guard, depth)).1
      = .closed name := by
    rw [← state]
    refine (congrArg Prod.fst shifted).trans ?_
    simp only [closed]
    rfl
  have isOf := Guard.isOf_foldl_follow frame.conditionDepth more (frame.guard, depth) (.inr soFar)
  rw [verdict] at isOf
  obtain absent | named := isOf
  · cases absent
  · exact (Option.some.inj named).symm

end Frame

end CPreprocessor
