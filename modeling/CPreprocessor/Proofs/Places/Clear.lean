/-
# What macros ask for

A view may hide what a builtin macro gives, or the white space that an operator `#` makes
part of a string. A macro table is clear under a view if none of its macros asks for what
the view hides, but for those that no word of the view's vocabulary names: expansion makes
words of words, so these macros are not called. Setting macros aside and restoring them keeps a
table clear.
-/
import CPreprocessor.Proofs.Expansion.Properties
import CPreprocessor.Proofs.Expansion.Strings
import CPreprocessor.Proofs.Places.Token

namespace CPreprocessor

/-- The view hides nothing that a macro can ask for: at most the numbers of files, columns, offsets and
reports. -/
structure View.IsClear (v : View) : Prop where
  name : v.name = true
  line : v.line = true
  space : v.space = true
  level : v.level = true
  answers : v.answers = none
  vocabulary : v.vocabulary = .all

/-- The tokens are words that the view is for. -/
def View.Speaks (v : View) (tokens : List Token) : Prop :=
  ∀ token ∈ tokens, v.vocabulary.has token.lexeme

/-- The macro asks for nothing that the view hides, or no word is its name; and words replace it, which
are pasted only if the view is for what they make. -/
structure Macro.IsClear (v : View) (m : Macro) : Prop where
  builtin : ∀ kind, m.builtin? = some kind → v.vocabulary.has m.name → v.sees kind = true
  strings : v.space = true ∨ m.parameters.makesString m.body = false
  body : v.Speaks m.body
  hashes : (∃ token ∈ m.body, token.isPaste = true) → v.vocabulary.pastes = true

/-- No macro of the table asks for what the view hides, nor does one that is set aside under the name
that it is restored to. -/
structure MacroTable.IsClear (v : View) (table : MacroTable) : Prop where
  macros : ∀ m ∈ table.macros, m.IsClear v
  saved : ∀ entry ∈ table.saved, ∀ m, entry.2 = some m → Macro.IsClear v { m with name := entry.1 }

section Decidable

variable (v : View) [DecidablePred v.vocabulary.has]

instance (tokens : List Token) : Decidable (v.Speaks tokens) :=
  inferInstanceAs (Decidable (∀ token ∈ tokens, v.vocabulary.has token.lexeme))

instance (m : Macro) : Decidable (m.IsClear v) :=
  decidable_of_iff ((∀ kind ∈ m.builtin?, v.vocabulary.has m.name → v.sees kind = true)
      ∧ (v.space = true ∨ m.parameters.makesString m.body = false) ∧ v.Speaks m.body
      ∧ ((∃ token ∈ m.body, token.isPaste = true) → v.vocabulary.pastes = true))
    ⟨fun ⟨builtin, strings, body, hashes⟩ => ⟨builtin, strings, body, hashes⟩,
      fun clear => ⟨clear.builtin, clear.strings, clear.body, clear.hashes⟩⟩

instance (table : MacroTable) : Decidable (table.IsClear v) :=
  decidable_of_iff ((∀ m ∈ table.macros, m.IsClear v)
      ∧ ∀ entry ∈ table.saved, ∀ m ∈ entry.2, Macro.IsClear v { m with name := entry.1 })
    ⟨fun ⟨macros, saved⟩ => ⟨macros, saved⟩, fun clear => ⟨clear.macros, clear.saved⟩⟩

end Decidable

variable {v : View}

theorem View.IsClear.speaks (clear : v.IsClear) (tokens : List Token) : v.Speaks tokens := by
  intro token _
  rw [clear.vocabulary]
  trivial

theorem View.IsClear.macro (clear : v.IsClear) (m : Macro) : m.IsClear v := by
  refine ⟨fun kind _ _ => ?_, .inl clear.space, clear.speaks _, fun _ => ?_⟩
  · cases kind <;> simp only [View.sees, clear.line, clear.name, clear.level]
  · rw [clear.vocabulary]
    rfl

theorem View.IsClear.table (clear : v.IsClear) (table : MacroTable) : table.IsClear v :=
  ⟨fun m _ => clear.macro m, fun _ _ _ _ => clear.macro _⟩

theorem View.speaks_seen (w : View) {tokens : List Token} :
    v.Speaks (tokens.map (Token.seen w)) ↔ v.Speaks tokens := by
  simp only [View.Speaks, List.forall_mem_map, Token.lexeme_seen]

/-- Tokens that look alike are the same words. -/
theorem View.Speaks.of_seen {tokens tokens' : List Token} (speaks : v.Speaks tokens) {w : View}
    (looks : tokens.map (Token.seen w) = tokens'.map (Token.seen w)) : v.Speaks tokens' :=
  (speaks_seen w).mp (looks ▸ (speaks_seen w).mpr speaks)

theorem Macro.isClear_seen (w : View) {m : Macro} : (m.seen w).IsClear v ↔ m.IsClear v := by
  have strings (p : Parameters) (body : List Token) :
      p.makesString (body.map (Token.seen w)) = p.makesString body := by
    induction body with
    | nil => rfl
    | cons token rest ih =>
      cases rest with
      | nil => rfl
      | cons next rest =>
        simp only [List.map_cons] at ih
        simp only [List.map_cons, Parameters.makesString, Token.isHash_seen, Parameters.indexOf?_seen, ih]
  have pastes (body : List Token) : (∃ token ∈ body.map (Token.seen w), token.isPaste = true)
      ↔ ∃ token ∈ body, token.isPaste = true := by
    constructor
    · rintro ⟨_, member, isPaste⟩
      obtain ⟨token, inside, rfl⟩ := List.mem_map.mp member
      exact ⟨token, inside, isPaste⟩
    · rintro ⟨token, inside, isPaste⟩
      exact ⟨_, List.mem_map_of_mem inside, isPaste⟩
  constructor <;> rintro ⟨builtin, made, body, hashes⟩
  · rw [Macro.builtin?_seen, Macro.name_seen] at builtin
    rw [Macro.parameters_seen, Macro.body_seen, strings] at made
    rw [Macro.body_seen, View.speaks_seen] at body
    rw [Macro.body_seen, pastes] at hashes
    exact ⟨builtin, made, body, hashes⟩
  · refine ⟨by rwa [Macro.builtin?_seen, Macro.name_seen], ?_, ?_, ?_⟩
    · rwa [Macro.parameters_seen, Macro.body_seen, strings]
    · rwa [Macro.body_seen, View.speaks_seen]
    · rwa [Macro.body_seen, pastes]

namespace MacroTable.IsClear

variable {table : MacroTable} (clear : table.IsClear v)

include clear

/-- What is seen of a table decides what its macros ask for. -/
theorem of_seen {w : View} {table' : MacroTable} (same : table.seen w = table'.seen w) :
    table'.IsClear v := by
  have seen : (table.seen w).IsClear v := by
    refine ⟨?_, ?_⟩
    · intro m member
      obtain ⟨original, inTable, rfl⟩ := List.mem_map.mp member
      exact (Macro.isClear_seen w).mpr (clear.macros original inTable)
    · intro entry member m found
      obtain ⟨original, inTable, rfl⟩ := List.mem_map.mp member
      obtain ⟨kept, isKept, rfl⟩ := Option.map_eq_some_iff.mp found
      exact (Macro.isClear_seen w).mpr (clear.saved original inTable kept isKept)
  rw [same] at seen
  refine ⟨?_, ?_⟩
  · intro m member
    exact (Macro.isClear_seen w).mp (seen.macros _ (List.mem_map_of_mem member))
  · intro entry member m found
    exact (Macro.isClear_seen w).mp (seen.saved _ (List.mem_map_of_mem member) (m.seen w)
      (congrArg (Option.map (Macro.seen w)) found))

theorem of_subset {table' : MacroTable} (macros : table'.macros ⊆ table.macros)
    (saved : table'.saved ⊆ table.saved) : table'.IsClear v :=
  ⟨fun m member => clear.macros m (macros member),
    fun entry member => clear.saved entry (saved member)⟩

/-- A view that also shows white space shows no less. -/
theorem spaced : table.IsClear v.spaced :=
  have shown {m : Macro} (clear : m.IsClear v) : m.IsClear v.spaced :=
    ⟨clear.builtin, .inl rfl, clear.body, clear.hashes⟩
  ⟨fun m member => shown (clear.macros m member),
    fun entry member m found => shown (clear.saved entry member m found)⟩

theorem erase (name : Text) : (table.erase name).IsClear v :=
  clear.of_subset List.filter_sublist.subset (List.Subset.refl _)

theorem insert {m : Macro} (added : m.IsClear v) : (table.insert m).IsClear v :=
  ⟨List.forall_mem_cons.mpr ⟨added, (clear.erase m.name).macros⟩, clear.saved⟩

theorem push (name : Text) : (table.push name).IsClear v := by
  refine ⟨clear.macros, List.forall_mem_cons.mpr ⟨fun m found => ?_, clear.saved⟩⟩
  rw [← MacroTable.name_of_find? found]
  exact clear.macros m (MacroTable.mem_of_find? found)

theorem pop (name : Text) : (table.pop name).2.IsClear v := by
  have rest : ({ table with saved := table.saved.eraseP (·.1 == name) } : MacroTable).IsClear v :=
    clear.of_subset (List.Subset.refl _) (List.eraseP_subset)
  unfold MacroTable.pop
  split
  · exact clear
  · rename_i entry definition found
    simp only []
    split
    · rename_i m
      have named : entry = name := by simpa using List.find?_some found
      have old := clear.saved _ (List.mem_of_find?_eq_some found) m rfl
      exact rest.insert (named ▸ old)
    · exact rest.erase name

end MacroTable.IsClear

/-! ## Macros that are called -/

namespace Substitution

/-- Two tokens are pasted to their lexemes. -/
theorem lexeme_of_pasted? {language : Language} {left right token : Token}
    (made : pasted? language left right = some token) : token.lexeme = left.lexeme ++ right.lexeme := by
  unfold pasted? at made
  simp only [] at made
  split at made
  · split at made
    · cases made
      rfl
    · cases made
  · cases made

/-- Operators make words of words. -/
theorem kept_speaks (v : View) (language : Language) :
    Kept language (v.vocabulary.pastes = true) fun token => v.vocabulary.has token.lexeme where
  spaced _ known := known
  pasted pastes left right made := by
    rw [lexeme_of_pasted? made]
    exact v.vocabulary.append pastes left right
  string _ _ := v.vocabulary.quoted _

end Substitution

theorem Macro.IsClear.brings {m : Macro} (clear : m.IsClear v) :
    m.Brings (v.vocabulary.pastes = true) fun token => v.vocabulary.has token.lexeme :=
  ⟨clear.body, clear.hashes⟩

/-- Expansion makes words of words. -/
theorem MacroTable.IsClear.preserves {ctx : Expansion.Context} (clear : ctx.table.IsClear v) :
    Expansion.Preserves ctx (v.vocabulary.pastes = true) fun token => v.vocabulary.has token.lexeme where
  kept := Substitution.kept_speaks v ctx.language
  moved _ _ _ lexeme _ known := by rwa [lexeme]
  builtin kind _ _ := by
    cases kind
    case line | counter | includeLevel => exact v.vocabulary.number _
    all_goals exact v.vocabulary.quoted _
  macros m member := (clear.macros m member).brings

namespace Head

variable {table : MacroTable} {tokens : List Token}

theorem sees_of_read (clear : table.IsClear v) (speaks : v.Speaks tokens) {kind : Builtin}
    {site : Token} {rest : List Token} (found : read table tokens = some (.builtin kind site rest)) :
    v.sees kind = true := by
  obtain ⟨m, site, rest, rfl, called, head⟩ := exists_called_of_read found nofun
  refine (clear.macros m (mem_of_called? called)).builtin kind (builtin?_of_ofMacro head) ?_
  rw [(name_of_called? called).1]
  exact speaks site List.mem_cons_self

theorem isClear_of_read (clear : table.IsClear v) {c : Call}
    (found : read table tokens = some (.call c)) : c.called.IsClear v := by
  obtain ⟨m, site, rest, -, called, head⟩ := exists_called_of_read found nofun
  rw [called_of_ofMacro head]
  exact clear.macros m (mem_of_called? called)

end Head

end CPreprocessor
