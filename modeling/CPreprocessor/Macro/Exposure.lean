/-
# Why expansion ends

A name is exposed at a token if it is not hidden in that token or in one before
it. The level of a token is the number of macro names exposed at it, so levels
rise along a list. A call takes its last token away; everything that replaces it
hides what was hidden at both ends of the call, and the name of the macro
besides, so it stands on lower levels. Arguments stand on no higher level than
they do in the call. Therefore every step of expansion leaves fewer tokens on
some level and not more above it.
-/
import CPreprocessor.Macro.Call
import CPreprocessor.Termination.Levels

namespace CPreprocessor

namespace Exposure

/-- The names exposed after one more token. -/
def expose (exposed : Text → Bool) (token : Token) : Text → Bool :=
  fun name => exposed name || (!token.isEnd && !token.hideSet.contains name)

/-- The number of tokens whose level is at least `level`. The end of a file is not counted. -/
def weight (names : List Text) (level : Nat) (exposed : Text → Bool) : List Token → Nat
  | [] => 0
  | token :: rest =>
    let exposed := expose exposed token
    (if !token.isEnd && level ≤ names.countP exposed then 1 else 0)
      + weight names level exposed rest

/-- The names exposed after some tokens. -/
def exposeAll (exposed : Text → Bool) (tokens : List Token) : Text → Bool :=
  tokens.foldl expose exposed

/-- No name is exposed before the first token. -/
def nothing : Text → Bool :=
  fun _ => false

/-- A token list as counts of tokens by levels. -/
def levels (names : List Text) (tokens : List Token) : Levels :=
  ⟨names.length, fun level => weight names level nothing tokens⟩

variable {names : List Text} {level : Nat}

theorem expose_mono {a b : Text → Bool} (more : ∀ name, a name → b name) (token : Token) :
    ∀ name, expose a token name → expose b token name := by
  intro name
  simp only [expose, Bool.or_eq_true]
  rintro (h | h)
  · exact .inl (more name h)
  · exact .inr h

theorem le_expose (a : Text → Bool) (token : Token) : ∀ name, a name → expose a token name := by
  intro name h
  simp [expose, h]

theorem weight_mono {a b : Text → Bool} (more : ∀ name, a name → b name) (tokens : List Token) :
    weight names level a tokens ≤ weight names level b tokens := by
  induction tokens generalizing a b with
  | nil => exact Nat.le_refl _
  | cons token rest ih =>
    have more' := expose_mono more token
    have count := List.countP_mono_left (l := names) fun name _ => more' name
    have later := ih more'
    simp only [weight, Bool.and_eq_true, decide_eq_true_eq]
    split
    · rename_i counted
      rw [if_pos ⟨counted.1, Nat.le_trans counted.2 count⟩]
      omega
    · omega

theorem weight_sublist {a b : List Token} (sub : a.Sublist b) (exposed : Text → Bool) :
    weight names level exposed a ≤ weight names level exposed b := by
  induction sub generalizing exposed with
  | slnil => exact Nat.le_refl _
  | @cons inner outer token _ ih =>
    have whole := ih (expose exposed token)
    have more : weight names level exposed inner ≤ weight names level (expose exposed token) inner :=
      weight_mono (le_expose exposed token) inner
    simp only [weight]
    omega
  | cons_cons token _ ih =>
    have := ih (expose exposed token)
    simp only [weight]
    omega

theorem weight_append (exposed : Text → Bool) (a b : List Token) :
    weight names level exposed (a ++ b)
      = weight names level exposed a + weight names level (exposeAll exposed a) b := by
  induction a generalizing exposed with
  | nil => simp [weight, exposeAll]
  | cons token rest ih =>
    simp only [List.cons_append, weight, ih]
    simp only [exposeAll, List.foldl_cons]
    omega

theorem exposeAll_append (exposed : Text → Bool) (a b : List Token) :
    exposeAll exposed (a ++ b) = exposeAll (exposeAll exposed a) b := by
  simp [exposeAll]

/-- A name that is exposed after some tokens was exposed before them or is not hidden in one. -/
theorem exposeAll_eq_true {exposed : Text → Bool} {tokens : List Token} {name : Text} :
    exposeAll exposed tokens name
      ↔ exposed name ∨ ∃ token ∈ tokens, token.isEnd = false ∧ name ∉ token.hideSet := by
  induction tokens generalizing exposed with
  | nil => simp [exposeAll]
  | cons token rest ih =>
    have unfolded : exposeAll exposed (token :: rest) = exposeAll (expose exposed token) rest := rfl
    rw [unfolded, ih]
    simp only [expose, Bool.or_eq_true, Bool.and_eq_true, Bool.not_eq_true', List.contains_eq_mem,
      decide_eq_false_iff_not, List.mem_cons, exists_eq_or_imp, or_assoc]

/-- Tokens at which only few names are exposed do not count on high levels. -/
theorem weight_eq_zero {exposed few : Text → Bool} {tokens : List Token}
    (low : names.countP few < level) (before : ∀ name, exposed name → few name)
    (inside : ∀ token ∈ tokens, ∀ name, name ∉ token.hideSet → few name) :
    weight names level exposed tokens = 0 := by
  induction tokens generalizing exposed with
  | nil => rfl
  | cons token rest ih =>
    have still : ∀ name, expose exposed token name → few name := by
      intro name
      simp only [expose, Bool.or_eq_true, Bool.and_eq_true, Bool.not_eq_true', List.contains_eq_mem,
        decide_eq_false_iff_not]
      rintro (h | h)
      · exact before name h
      · exact inside token (List.mem_cons_self ..) name h.2
    have count := List.countP_mono_left (l := names) fun name _ => still name
    have later := ih still fun t member => inside t (List.mem_cons_of_mem _ member)
    simp only [weight, later]
    rw [if_neg]
    simp only [Bool.and_eq_true, decide_eq_true_eq, not_and]
    omega

/-- Hiding an exposed name leaves fewer names exposed. -/
theorem countP_without {exposed : Text → Bool} {name : Text} (known : name ∈ names)
    (isExposed : exposed name) :
    names.countP (fun other => exposed other && other != name) < names.countP exposed := by
  induction names with
  | nil => cases known
  | cons head rest ih =>
    have least : rest.countP (fun other => exposed other && other != name) ≤ rest.countP exposed :=
      List.countP_mono_left fun other _ h => by
        simp only [Bool.and_eq_true] at h
        exact h.1
    rw [List.countP_cons, List.countP_cons]
    by_cases same : head = name
    · subst same
      simp only [bne_self_eq_false, Bool.and_false, isExposed, if_true]
      simp only [Bool.false_eq_true, if_false]
      omega
    · have inRest : name ∈ rest := by
        rcases List.mem_cons.mp known with h | h
        · exact absurd h.symm same
        · exact h
      have := ih inRest
      have : (head != name) = true := by simpa using same
      simp only [this, Bool.and_true]
      omega

/-- Part of a list has not more tokens. -/
theorem atMost_of_sublist {part tokens : List Token} (sub : part.Sublist tokens) :
    Levels.AtMost (levels names part) (levels names tokens) :=
  .inr ⟨rfl, fun _ => weight_sublist sub _⟩

/-- Taking the first token away leaves fewer tokens. -/
theorem fewer_tail {token : Token} (more : token.isEnd = false) {rest part : List Token}
    (sub : part.Sublist rest) :
    Levels.Below (levels names part) (levels names (token :: rest)) := by
  have part_le (level : Nat) :
      weight names level nothing part ≤ weight names level (expose nothing token) rest :=
    Nat.le_trans (weight_sublist sub _) (weight_mono (le_expose nothing token) rest)
  refine .inr ⟨rfl, 0, Nat.zero_le _, ?_, fun level _ _ => ?_⟩
  · have := part_le 0
    simp only [levels, weight, more, Bool.not_false, Bool.true_and, Nat.zero_le, decide_true, if_true]
    omega
  · have := part_le level
    simp only [levels, weight]
    omega

/-- Replacing a call leaves fewer tokens on the level of its last token, and not more above: what
replaces it exposes only what the call exposes, without the name of the macro. -/
theorem fewer_replace (segment : List Token) {close : Token} {rest body : List Token} {name : Text}
    (more : close.isEnd = false) (known : name ∈ names)
    (isExposed : exposeAll nothing (segment ++ [close]) name)
    (hidden : ∀ token ∈ body, ∀ other, other ∉ token.hideSet →
      exposeAll nothing (segment ++ [close]) other ∧ other ≠ name) :
    Levels.Below (levels names (body ++ rest)) (levels names (segment ++ close :: rest)) := by
  let all := exposeAll nothing (segment ++ [close])
  let few : Text → Bool := fun other => all other && other != name
  have less : names.countP few < names.countP all := countP_without known isExposed
  have inside : ∀ token ∈ body, ∀ other, other ∉ token.hideSet → few other := by
    intro token member other free
    have := hidden token member other free
    simp only [few, all, Bool.and_eq_true, this.1, true_and]
    simpa using this.2
  have bodyExposes : ∀ other, exposeAll nothing body other → all other := by
    intro other h
    rcases exposeAll_eq_true.mp h with h | ⟨token, member, _, free⟩
    · cases h
    · exact (hidden token member other free).1
  have split (level : Nat) : weight names level nothing (segment ++ close :: rest)
      = weight names level nothing segment
        + (weight names level (exposeAll nothing segment) [close] + weight names level all rest) := by
    have : segment ++ close :: rest = segment ++ ([close] ++ rest) := by simp
    rw [this, weight_append, weight_append]
    simp only [all, exposeAll_append]
  have bound (level : Nat) (high : names.countP all ≤ level) :
      weight names level nothing (body ++ rest) ≤ weight names level all rest := by
    rw [weight_append, weight_eq_zero (show names.countP few < level by omega) (fun _ h => by cases h) inside,
      Nat.zero_add]
    exact weight_mono bodyExposes rest
  have last : weight names (names.countP all) (exposeAll nothing segment) [close] = 1 := by
    have : expose (exposeAll nothing segment) close = all := by
      simp [all, exposeAll]
    simp [weight, more, this]
  refine .inr ⟨rfl, names.countP all, List.countP_le_length, ?_, fun level high _ => ?_⟩
  · have := bound _ (Nat.le_refl _)
    simp only [levels, split, last]
    omega
  · have := bound level (Nat.le_of_lt high)
    simp only [levels, split]
    omega

/-- The end of a file counts nothing. -/
theorem levels_append_end {tokens ends : List Token} (allEnd : ∀ token ∈ ends, token.isEnd = true) :
    levels names (tokens ++ ends) = levels names tokens := by
  have zero (level : Nat) (exposed : Text → Bool) : weight names level exposed ends = 0 := by
    induction ends generalizing exposed with
    | nil => rfl
    | cons token rest ih =>
      have isEnd := allEnd token (List.mem_cons_self ..)
      simp only [weight, isEnd, Bool.not_true, Bool.false_and, Bool.false_eq_true, if_false]
      rw [ih fun t member => allEnd t (List.mem_cons_of_mem _ member)]
  simp only [levels, weight_append, zero, Nat.add_zero]

/-- Arguments are parts of the tokens after the name of the macro. -/
theorem sublist_of_ofMacro {m : Macro} {site : Token} {rest : List Token} {c : Call}
    (found : Head.ofMacro m site rest = .call c) : ∀ tokens ∈ c.arguments, tokens.Sublist rest := by
  unfold Head.ofMacro at found
  split at found
  · cases found
  · cases found
    simp
  · split at found
    · cases found
    · split at found
      · split at found
        · cases found
        · split at found
          · cases found
          · rename_i a read _ args fits
            cases found
            intro tokens member
            rcases Arguments.mem_of_fit fits tokens member with piece | rfl
            · exact List.Sublist.cons _ (Arguments.sublist_of_read read tokens piece)
            · exact List.nil_sublist _
      · cases found

/-- Replacing a call of a known macro whose name is not hidden in the call leaves fewer tokens. -/
theorem fewer_of_ofMacro {m : Macro} {site : Token} {rest : List Token} {c : Call}
    (found : Head.ofMacro m site rest = .call c) (more : site.isEnd = false)
    (known : m.name ∈ names) (free : m.name ∉ site.hideSet) {body : List Token}
    (painted : ∀ token ∈ body, ∀ name ∈ c.hidden, name ∈ token.hideSet) :
    Levels.Below (levels names (body ++ c.rest)) (levels names (site :: rest)) := by
  have bySite {tokens : List Token} (member : site ∈ tokens) {name : Text}
      (notHidden : name ∉ site.hideSet) : exposeAll nothing tokens name :=
    exposeAll_eq_true.mpr (.inr ⟨site, member, more, notHidden⟩)
  unfold Head.ofMacro at found
  split at found
  · cases found
  · cases found
    refine fewer_replace [] more known (bySite (by simp) free) ?_
    intro token member other notHidden
    have outside : other ∉ site.hideSet ∧ other ≠ m.name := by
      constructor <;> intro h <;>
        exact notHidden (painted token member other (HideSet.mem_union.mpr (by simp [h])))
    exact ⟨bySite (by simp) outside.1, outside.2⟩
  · split at found
    · cases found
    · split at found
      · split at found
        · cases found
        · split at found
          · cases found
          · rename_i opening inner _ _ a read _ args fits
            cases found
            obtain ⟨before, rfl, close⟩ := Arguments.eq_of_read read
            have whole : site :: opening :: (before ++ a.close :: a.rest)
                = (site :: opening :: before) ++ a.close :: a.rest := rfl
            rw [whole]
            refine fewer_replace _ close known (bySite (by simp) free) ?_
            intro token member other notHidden
            have outside : other ∉ site.hideSet.inter a.close.hideSet ∧ other ≠ m.name := by
              constructor <;> intro h <;>
                exact notHidden (painted token member other (HideSet.mem_union.mpr (by simp [h])))
            refine ⟨?_, outside.2⟩
            by_cases atSite : other ∈ site.hideSet
            · have atClose : other ∉ a.close.hideSet :=
                fun h => outside.1 (HideSet.mem_inter.mpr ⟨atSite, h⟩)
              exact exposeAll_eq_true.mpr (.inr ⟨a.close, by simp, close, atClose⟩)
            · exact bySite (by simp) atSite
      · cases found

end Exposure

end CPreprocessor
