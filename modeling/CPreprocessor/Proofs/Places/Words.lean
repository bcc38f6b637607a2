/-
# What is seen of words

The view that shows of tokens only what they are, and of answers for headers only that
they are right. It comes in two forms: in files that stand on the same level in both
runs the level is shown, elsewhere it is not. The forms differ in what they show of open
conditionals and of the place of a reader, so sessions that show the same in one form and
have conditionals that show the same in the other show the same in both.
-/
import CPreprocessor.Proofs.Guard.Consistent
import CPreprocessor.Proofs.Lexing.Words
import CPreprocessor.Proofs.Places.Reader

namespace CPreprocessor

/-- The view that shows the words of a vocabulary; of the place where a file stands it shows all or
nothing. -/
def View.words (setup : Setup) (known : Vocabulary) (level : Bool) : View :=
  { number := false, name := false, line := false, column := false, offset := false, space := false
    level, answers := some (setup.files, setup.config.searchPath), guards := false, reports := false
    vocabulary := known }

instance (setup : Setup) (known : Vocabulary) [words : DecidablePred known.has] (level : Bool) :
    DecidablePred (View.words setup known level).vocabulary.has :=
  words

variable {setup : Setup} {known : Vocabulary} {b c : Bool}

/-- Tokens that look alike are the same words. -/
theorem Token.words_of_seen {v : View} {tokens tokens' : List Token}
    (looks : tokens.map (Token.seen v) = tokens'.map (Token.seen v)) :
    tokens.map Token.word = tokens'.map Token.word := by
  have words := congrArg (List.map Token.word) looks
  rwa [List.map_map, List.map_map] at words

/-- Files look alike if their words do. -/
theorem Lexer.alike_words {l l' : Lexer} :
    l.Alike (.words setup known b) l' ↔ l.Alike .blind l' := by
  constructor
  all_goals
    intro same
    exact ⟨same.language, same.skips, same.nothingPeeked, same.rest, same.atLineStart, nofun,
      same.openComment, rfl, rfl, nofun, nofun, nofun, nofun⟩

/-- What macros may not ask for where the level is hidden, they may not ask for where it is shown. -/
theorem MacroTable.IsClear.words {table : MacroTable} (clear : table.IsClear (.words setup known false))
    (c : Bool) : table.IsClear (.words setup known c) := by
  have shown {m : Macro} (clear : m.IsClear (.words setup known false)) :
      m.IsClear (.words setup known c) := by
    refine ⟨fun kind found named => ?_, clear.strings, clear.body, clear.hashes⟩
    have seen := clear.builtin kind found named
    cases kind <;> first | exact seen | cases seen
  exact ⟨fun m member => shown (clear.macros m member),
    fun entry member m found => shown (clear.saved entry member m found)⟩

/-- What is seen of conditionals where the level is shown decides what is seen where it is not. -/
theorem ConditionStack.seen_words {one two : ConditionStack}
    (same : one.seen (.words setup known true) = two.seen (.words setup known true)) :
    one.seen (.words setup known false) = two.seen (.words setup known false) := by
  have hidden := congrArg (fun stack : ConditionStack =>
    (⟨stack.frames.map fun frame => { frame with includeDepth := 0 }⟩ : ConditionStack)) same
  simp only [seen, List.map_map] at hidden
  exact hidden

/-- Sessions show the same in the other form if their conditionals do. -/
theorem Session.Alike.words {s s' : Session} (same : s.Alike (View.words setup known b).spaced s')
    (conditions : s.conditions.seen (.words setup known c) = s'.conditions.seen (.words setup known c)) :
    s.Alike (View.words setup known c).spaced s' := by
  obtain ⟨t, shows, shows'⟩ := same
  have showing {s : Session} (shows : Session.Shows (View.words setup known b).spaced s t) :
      Session.Shows (View.words setup known c).spaced s
        { t with conditions := s.conditions.seen (.words setup known c) } :=
    ⟨shows.macros, rfl, shows.resolver, shows.expansion.counter, fun compared => by cases compared⟩
  exact ⟨_, showing shows, conditions ▸ showing shows'⟩

/-- Reports and right answers are not compared. -/
theorem Session.Alike.looked {s s' : Session} (same : s.Alike (View.words setup known b).spaced s')
    (journal : Journal) {resolver : Resolver}
    (sound : resolver.IsSound setup.files setup.config.searchPath) :
    Session.Alike (View.words setup known b).spaced { s.annotated journal with resolver } s' := by
  obtain ⟨t, shows, shows'⟩ := same
  have kept : t.resolver.IsSound setup.files setup.config.searchPath := shows.resolver.2
  exact ⟨t, ⟨shows.macros, shows.conditions, ⟨sound, kept⟩, shows.expansion.counter,
    fun compared => by cases compared⟩, shows'⟩

theorem Session.Alike.sound {s s' : Session} (same : s.Alike (View.words setup known b).spaced s') :
    s.resolver.IsSound setup.files setup.config.searchPath := by
  obtain ⟨t, shows, -⟩ := same
  exact shows.resolver.1

end CPreprocessor
