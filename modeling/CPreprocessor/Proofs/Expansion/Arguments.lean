/-
# The arguments of a call

Between the parenthesis after the name of a function-like macro and the one that closes it,
the arguments are separated by the commas that stand in no inner parentheses
(`Arguments.Splits`); where a macro takes variable arguments, the commas among these
separate nothing. `Arguments.read` goes token by token and counts how deep the parentheses
are; here it is related to what stands between the parentheses as a whole
(`splits_of_read`). A call has an argument for each parameter (`Head.ofMacro_collects`), or
it is refused, and why can be told from its tokens (`Arguments.Refuses`).
-/
import CPreprocessor.Proofs.Expansion.Ends
import CPreprocessor.Proofs.Expansion.Origins

namespace CPreprocessor

namespace Arguments

variable {depth inner : Nat} {tokens : List Token} {token : Token}

/-- No parenthesis is closed that is not open, when `depth` of them are open at first. -/
def StaysOpen (depth : Nat) (tokens : List Token) : Prop :=
  ∀ before, before <+: tokens → before.countP Token.isClose ≤ depth + before.countP Token.isOpen

/-- Every parenthesis is closed, and none is closed that is not open. -/
structure IsBalanced (tokens : List Token) : Prop where
  inside : Inside tokens
  opened : StaysOpen 0 tokens
  closed : tokens.countP Token.isClose = tokens.countP Token.isOpen

/-- Every comma stands in parentheses, when `depth` of them are open at first. -/
def Whole (depth : Nat) (tokens : List Token) : Prop :=
  ∀ before comma after, tokens = before ++ comma :: after → comma.isPunctuator [','] = true →
    before.countP Token.isClose < depth + before.countP Token.isOpen

/-- The tokens are these arguments, separated by commas that stand in no parentheses. At most
`commas` commas separate arguments; without a bound, all of them do. -/
inductive Splits : Option Nat → List Token → List (List Token) → Prop where
  | last {commas : Option Nat} {piece : List Token} (balanced : IsBalanced piece)
      (whole : commas ≠ some 0 → Whole 0 piece) : Splits commas piece [piece]
  | more {commas : Option Nat} {piece rest : List Token} {pieces : List (List Token)} {comma : Token}
      (balanced : IsBalanced piece) (whole : Whole 0 piece)
      (isComma : comma.isPunctuator [','] = true) (separates : commas ≠ some 0)
      (others : Splits (commas.map (· - 1)) rest pieces) :
      Splits commas (piece ++ comma :: rest) (piece :: pieces)

/-! ## Depths -/

/-- A token opens a parenthesis, closes one or does neither. -/
theorem kinds_of_token (token : Token) :
    token.isOpen = true ∧ token.isClose = false ∨ token.isOpen = false ∧ token.isClose = true
      ∨ token.isOpen = false ∧ token.isClose = false := by
  cases isOpen : token.isOpen with
  | true => exact .inl ⟨rfl, Token.isPunctuator_of_isPunctuator isOpen _⟩
  | false => cases token.isClose <;> simp

theorem staysOpen_cons : StaysOpen depth (token :: tokens) ↔ ∀ before, before <+: tokens →
    (token :: before).countP Token.isClose ≤ depth + (token :: before).countP Token.isOpen := by
  constructor
  · exact fun opened before initial => opened _ (List.cons_prefix_cons.mpr ⟨rfl, initial⟩)
  · intro opened before initial
    obtain rfl | ⟨rest, rfl, inRest⟩ := List.prefix_cons_iff.mp initial
    · exact Nat.zero_le _
    · exact opened rest inRest

theorem staysOpen_open (isOpen : token.isOpen = true) :
    StaysOpen depth (token :: tokens) ↔ StaysOpen (depth + 1) tokens := by
  have notClose : token.isClose = false := Token.isPunctuator_of_isPunctuator isOpen _
  rw [staysOpen_cons]
  refine forall₂_congr fun before _ => ?_
  simp only [List.countP_cons, isOpen, notClose, if_true, Bool.false_eq_true, if_false]
  omega

theorem staysOpen_close (isClose : token.isClose = true) :
    StaysOpen depth (token :: tokens) ↔ 0 < depth ∧ StaysOpen (depth - 1) tokens := by
  have notOpen : token.isOpen = false := Token.isPunctuator_of_isPunctuator isClose _
  rw [staysOpen_cons]
  simp only [List.countP_cons, isClose, notOpen, if_true, Bool.false_eq_true, if_false]
  constructor
  · intro opened
    have first := opened [] List.nil_prefix
    simp only [List.countP_nil] at first
    exact ⟨by omega, fun before initial => by have := opened before initial; omega⟩
  · rintro ⟨positive, opened⟩ before initial
    have := opened before initial
    omega

theorem staysOpen_other (notOpen : token.isOpen = false) (notClose : token.isClose = false) :
    StaysOpen depth (token :: tokens) ↔ StaysOpen depth tokens := by
  rw [staysOpen_cons]
  simp only [List.countP_cons, notOpen, notClose, Bool.false_eq_true, if_false, Nat.add_zero]
  rfl

/-- How deep the parentheses are after some tokens is how many of them are left open. -/
theorem depthAfter_eq_some_iff :
    depthAfter depth tokens = some inner ↔ Inside tokens ∧ StaysOpen depth tokens
      ∧ inner + tokens.countP Token.isClose = depth + tokens.countP Token.isOpen := by
  induction tokens generalizing depth with
  | nil =>
    have opened : StaysOpen depth [] := fun before initial => by
      rw [List.prefix_nil.mp initial]
      exact Nat.zero_le _
    simp [depthAfter, Inside.nil, opened, eq_comm]
  | cons token rest ih =>
    rw [depthAfter]
    cases isEnd : token.isEnd with
    | true =>
      simp only [if_true, reduceCtorEq, false_iff]
      exact fun facts => by simpa [isEnd] using facts.1 token List.mem_cons_self
    | false =>
      have inside : Inside (token :: rest) ↔ Inside rest := by simp [Inside, isEnd]
      simp only [Bool.false_eq_true, if_false, inside]
      obtain ⟨isOpen, isClose⟩ | ⟨isOpen, isClose⟩ | ⟨isOpen, isClose⟩ := kinds_of_token token
      · simp only [isOpen, isClose, Bool.false_eq_true, if_false, if_true, ih, staysOpen_open isOpen,
          List.countP_cons]
        refine and_congr_right fun _ => and_congr_right fun _ => ?_
        omega
      · simp only [isOpen, isClose, Bool.false_eq_true, if_false, if_true, staysOpen_close isClose,
          List.countP_cons]
        split
        · rename_i zero
          simp [zero]
        · rename_i positive
          simp only [ih, Nat.pos_of_ne_zero positive, true_and]
          refine and_congr_right fun _ => and_congr_right fun _ => ?_
          omega
      · simp only [isOpen, isClose, Bool.false_eq_true, if_false, ih,
          staysOpen_other isOpen isClose, List.countP_cons, Nat.add_zero]

theorem isBalanced_iff : IsBalanced tokens ↔ depthAfter 0 tokens = some 0 := by
  rw [depthAfter_eq_some_iff]
  constructor
  · exact fun balanced => ⟨balanced.inside, balanced.opened, by rw [balanced.closed]⟩
  · exact fun ⟨inside, opened, closed⟩ => ⟨inside, opened, by omega⟩

theorem depthAfter_append (depth : Nat) (first second : List Token) :
    depthAfter depth (first ++ second)
      = (depthAfter depth first).bind fun inner => depthAfter inner second := by
  induction first generalizing depth with
  | nil => rfl
  | cons token rest ih =>
    simp only [List.cons_append, depthAfter, ih]
    split_ifs <;> rfl

/-- How deep the parentheses are after one token that does not close the call. -/
theorem depthAfter_singleton (more : token.isEnd = false)
    (notLast : ¬(decide (depth = 0) && token.isClose) = true) :
    depthAfter depth [token]
      = some (if token.isOpen then depth + 1 else if token.isClose then depth - 1 else depth) := by
  simp only [depthAfter, more, Bool.false_eq_true, if_false]
  obtain ⟨isOpen, isClose⟩ | ⟨isOpen, isClose⟩ | ⟨isOpen, isClose⟩ := kinds_of_token token
  all_goals simp only [isOpen, isClose, Bool.and_true, decide_eq_true_eq] at notLast ⊢
  all_goals simp [notLast]

/-! ## Reading -/

/-- A token that separates nothing, before tokens in which every comma stands in parentheses. -/
theorem whole_cons (notComma : token.isPunctuator [','] = true → depth ≠ 0)
    (here : depthAfter depth [token] = some inner) (whole : Whole inner tokens) :
    Whole depth (token :: tokens) := by
  have counts := (depthAfter_eq_some_iff.mp here).2.2
  simp only [List.countP_cons, List.countP_nil, Nat.zero_add] at counts
  intro before comma after split isComma
  cases before with
  | nil =>
    obtain ⟨rfl, -⟩ := List.cons.inj split
    have := notComma isComma
    simp only [List.countP_nil]
    omega
  | cons first before =>
    obtain ⟨rfl, later⟩ := List.cons.inj split
    have := whole before comma after later isComma
    simp only [List.countP_cons]
    omega

/-- What is read inside of `depth` parentheses: the first argument, up to the parenthesis that closes
the call or up to a comma before the other arguments. -/
theorem parts_of_read {commas : Option Nat} {a : Arguments}
    (found : read commas depth tokens = some a) :
    a.close.isClose = true ∧ ∃ piece pieces, a.pieces = piece :: pieces
      ∧ depthAfter depth piece = some 0 ∧ (commas ≠ some 0 → Whole depth piece)
      ∧ (pieces = [] ∧ tokens = piece ++ a.close :: a.rest
        ∨ ∃ comma rest, commas ≠ some 0 ∧ comma.isPunctuator [','] = true
          ∧ Splits (commas.map (· - 1)) rest pieces
          ∧ tokens = piece ++ comma :: (rest ++ a.close :: a.rest)) := by
  induction tokens generalizing commas depth a with
  | nil => cases found
  | cons token rest ih =>
    rw [read] at found
    split at found
    · cases found
    · rename_i more
      have more : token.isEnd = false := Bool.eq_false_iff.mpr more
      split at found
      · rename_i closes
        simp only [Bool.and_eq_true, decide_eq_true_eq] at closes
        obtain ⟨rfl, isClose⟩ := closes
        cases found
        refine ⟨isClose, [], [], rfl, rfl, fun _ before comma after split => ?_, .inl ⟨rfl, rfl⟩⟩
        simp at split
      · rename_i notLast
        split at found
        · rename_i separates
          simp only [Bool.and_eq_true, decide_eq_true_eq] at separates
          obtain ⟨⟨rfl, isComma⟩, allowed⟩ := separates
          obtain ⟨b, later, rfl⟩ := Option.map_eq_some_iff.mp found
          obtain ⟨isClose, piece, pieces, form, balanced, whole, ends⟩ := ih later
          have balanced := isBalanced_iff.mpr balanced
          refine ⟨isClose, [], b.pieces, rfl, rfl, fun _ before comma after split => ?_, .inr ?_⟩
          · simp at split
          · simp only [form]
            obtain ⟨rfl, rfl⟩ | ⟨comma, more, separates, isComma', others, rfl⟩ := ends
            · exact ⟨token, piece, allowed, isComma, .last balanced whole, rfl⟩
            · exact ⟨token, _, allowed, isComma,
                .more balanced (whole separates) isComma' separates others, by simp⟩
        · rename_i separatesNothing
          obtain ⟨b, later, rfl⟩ := Option.map_eq_some_iff.mp found
          obtain ⟨isClose, piece, pieces, form, closed, whole, ends⟩ := ih later
          have here := depthAfter_singleton more notLast
          refine ⟨isClose, token :: piece, pieces, ?_, ?_, fun separates => ?_, ?_⟩
          · simp only [form, prepend]
          · rw [← List.singleton_append, depthAfter_append, here]
            exact closed
          · refine whole_cons (fun isComma top => separatesNothing ?_) here (whole separates)
            simp [top, isComma, separates]
          · obtain ⟨none, rfl⟩ | ⟨comma, rest, separates, isComma, others, rfl⟩ := ends
            · exact .inl ⟨none, rfl⟩
            · exact .inr ⟨comma, rest, separates, isComma, others, rfl⟩

/-- The arguments of a call stand between its parentheses, separated by commas. -/
theorem splits_of_read {commas : Option Nat} {a : Arguments} (found : read commas 0 tokens = some a) :
    a.close.isClose = true
      ∧ ∃ between, Splits commas between a.pieces ∧ tokens = between ++ a.close :: a.rest := by
  obtain ⟨isClose, piece, pieces, form, balanced, whole, ends⟩ := parts_of_read found
  have balanced := isBalanced_iff.mpr balanced
  refine ⟨isClose, ?_⟩
  rw [form]
  obtain ⟨rfl, split⟩ | ⟨comma, rest, separates, isComma, others, split⟩ := ends
  · exact ⟨piece, .last balanced whole, split⟩
  · exact ⟨_, .more balanced (whole separates) isComma separates others, by rw [split]; simp⟩

/-- Without arguments to read, the file or the list ends inside of the call. -/
theorem unclosed_of_read {commas : Option Nat} (none : read commas depth tokens = none) :
    ∃ inside after, tokens = inside ++ after ∧ Inside inside ∧ StaysOpen depth inside
      ∧ ∀ token ∈ after.head?, token.isEnd = true := by
  suffices unclosed : ∃ inside after, tokens = inside ++ after
      ∧ (depthAfter depth inside).isSome = true ∧ ∀ token ∈ after.head?, token.isEnd = true by
    obtain ⟨inside, after, split, goesOn, ends⟩ := unclosed
    obtain ⟨inner, goesOn⟩ := Option.isSome_iff_exists.mp goesOn
    obtain ⟨more, opened, -⟩ := depthAfter_eq_some_iff.mp goesOn
    exact ⟨inside, after, split, more, opened, ends⟩
  induction tokens generalizing commas depth with
  | nil => exact ⟨[], [], rfl, rfl, by simp⟩
  | cons token rest ih =>
    rw [read] at none
    split at none
    · rename_i isEnd
      exact ⟨[], token :: rest, rfl, rfl, by simpa using isEnd⟩
    · rename_i more
      have more : token.isEnd = false := Bool.eq_false_iff.mpr more
      split at none
      · cases none
      · rename_i notLast
        have here := depthAfter_singleton more notLast
        have goesOn {inner : Nat} (same : depthAfter depth [token] = some inner)
            (later : ∃ inside after, rest = inside ++ after
              ∧ (depthAfter inner inside).isSome = true ∧ ∀ token ∈ after.head?, token.isEnd = true) :
            ∃ inside after, token :: rest = inside ++ after
              ∧ (depthAfter depth inside).isSome = true ∧ ∀ token ∈ after.head?, token.isEnd = true := by
          obtain ⟨inside, after, rfl, goesOn, ends⟩ := later
          refine ⟨token :: inside, after, rfl, ?_, ends⟩
          rw [← List.singleton_append, depthAfter_append, same]
          exact goesOn
        split at none
        · rename_i separates
          simp only [Bool.and_eq_true, decide_eq_true_eq] at separates
          obtain ⟨⟨rfl, isComma⟩, -⟩ := separates
          have neither : token.isOpen = false ∧ token.isClose = false :=
            ⟨Token.isPunctuator_of_isPunctuator isComma _, Token.isPunctuator_of_isPunctuator isComma _⟩
          simp only [neither, Bool.false_eq_true, if_false] at here
          exact goesOn here (ih (Option.map_eq_none_iff.mp none))
        · exact goesOn here (ih (Option.map_eq_none_iff.mp none))

/-! ## Splitting -/

namespace Splits

variable {commas : Option Nat} {pieces : List (List Token)}

theorem ne_nil (splits : Splits commas tokens pieces) : pieces ≠ [] := by
  cases splits <;> exact List.cons_ne_nil _ _

/-- Every argument is balanced. -/
theorem balanced (splits : Splits commas tokens pieces) : ∀ piece ∈ pieces, IsBalanced piece := by
  induction splits with
  | last balanced whole => exact List.forall_mem_singleton.mpr balanced
  | more balanced whole isComma separates others ih => exact List.forall_mem_cons.mpr ⟨balanced, ih⟩

/-- All that stands between the parentheses is balanced, so it does not close the call. -/
theorem isBalanced (splits : Splits commas tokens pieces) : IsBalanced tokens := by
  induction splits with
  | last balanced whole => exact balanced
  | @more commas piece rest pieces comma balanced whole isComma separates others ih =>
    have more : comma.isEnd = false := by
      have kind := (Token.isPunctuator_iff.mp isComma).1
      simp [Token.isEnd, kind]
    have isOpen : comma.isOpen = false := Token.isPunctuator_of_isPunctuator isComma _
    have isClose : comma.isClose = false := Token.isPunctuator_of_isPunctuator isComma _
    have same := @depthAfter_singleton 0 comma more (by simp [isClose])
    rw [isBalanced_iff] at balanced ih ⊢
    rw [depthAfter_append, balanced, ← List.singleton_append, Option.bind_some, depthAfter_append, same]
    simpa [isOpen, isClose] using ih

/-- A bound on the commas is one on the arguments. -/
theorem length_le {most : Nat} (splits : Splits (some most) tokens pieces) :
    pieces.length ≤ most + 1 := by
  generalize bound : some most = commas at splits
  induction splits generalizing most with
  | last balanced whole => exact Nat.succ_le_succ (Nat.zero_le _)
  | @more _ piece rest pieces comma balanced whole isComma separates others ih =>
    subst bound
    have few : pieces.length ≤ most - 1 + 1 := ih rfl
    have positive : most ≠ 0 := fun zero => separates (by rw [zero])
    simp only [List.length_cons]
    omega

end Splits

/-! ## Parameters and their arguments -/

variable {p : Parameters}

/-- Why a call with these tokens after its name is refused. -/
inductive Refuses (p : Parameters) : Code → List Token → Prop where
  /-- The file or the list ends inside of the call. -/
  | unclosed {opening : Token} {inside after : List Token} (isOpen : opening.isOpen = true)
      (more : Inside inside) (opened : StaysOpen 0 inside)
      (ends : ∀ token ∈ after.head?, token.isEnd = true) :
      Refuses p .mismatchedParens (opening :: (inside ++ after))
  | tooFew {opening close : Token} {between after : List Token} {pieces : List (List Token)}
      (isOpen : opening.isOpen = true) (isClose : close.isClose = true)
      (splits : Splits (separators p) between pieces) (few : count p pieces < p.named.length) :
      Refuses p .tooFewArgs (opening :: (between ++ close :: after))
  | tooMany {opening close : Token} {between after : List Token} {pieces : List (List Token)}
      (isOpen : opening.isOpen = true) (isClose : close.isClose = true)
      (splits : Splits (separators p) between pieces) (fixed : p.variadic = none)
      (many : p.named.length < count p pieces) :
      Refuses p .tooManyArgs (opening :: (between ++ close :: after))

/-- Each parameter has its argument: these are the pieces of the call, and the variable arguments, if
they are left out, are empty. -/
structure Fits (p : Parameters) (pieces arguments : List (List Token)) : Prop where
  taken : arguments = pieces
    ∨ p.variadic.isSome = true ∧ pieces.length = p.named.length ∧ arguments = pieces ++ [[]]
  named : p.variadic = none → p.named ≠ [] → arguments.length = p.named.length
  unnamed : p.variadic = none → p.named = [] → arguments = [[]]
  variadic : p.variadic.isSome = true → arguments.length = p.named.length + 1

theorem fits_of_fit {between : List Token} {pieces arguments : List (List Token)}
    (splits : Splits (separators p) between pieces) (fits : fit p pieces = .ok arguments) :
    Fits p pieces arguments := by
  unfold fit at fits
  simp only [] at fits
  cases variadic : p.variadic with
  | some name =>
    simp only [separators, variadic, Option.isSome_some, if_true] at splits fits
    have most := splits.length_le
    split at fits
    · cases fits
    · split at fits
      · rename_i omitted
        cases fits
        exact ⟨.inr ⟨by rw [variadic]; rfl, omitted, rfl⟩, by simp [variadic], by simp [variadic],
          fun _ => by rw [List.length_append, omitted]; rfl⟩
      · cases fits
        exact ⟨.inl rfl, by simp [variadic], by simp [variadic], fun _ => by omega⟩
  | none =>
    simp only [variadic, Option.isSome_none, Bool.false_eq_true, if_false] at fits
    split at fits
    · cases fits
    · split at fits
      · cases fits
      · rename_i notFew notMany
        cases fits
        have same : count p pieces = p.named.length := by omega
        refine ⟨.inl rfl, fun _ some => ?_, fun _ none => ?_, by simp [variadic]⟩
        · rw [← same, count]
          simp [some]
        · have single : pieces = [[]] := by
            by_contra other
            have positive := List.length_pos_iff.mpr splits.ne_nil
            simp only [count, none, List.length_nil, decide_true, Bool.true_and, beq_iff_eq, other,
              if_false] at same
            omega
          exact single

/-- A call whose arguments do not fit is refused for their number. -/
theorem refuses_of_fit {between after : List Token} {opening close : Token}
    {pieces : List (List Token)} {code : Code} (isOpen : opening.isOpen = true)
    (isClose : close.isClose = true) (splits : Splits (separators p) between pieces)
    (refused : fit p pieces = .error code) :
    Refuses p code (opening :: (between ++ close :: after)) := by
  unfold fit at refused
  simp only [] at refused
  split at refused
  · rename_i variadic
    split at refused
    · rename_i few
      cases refused
      refine .tooFew isOpen isClose splits (Nat.lt_of_le_of_lt ?_ few)
      unfold count
      split
      · exact Nat.zero_le _
      · exact Nat.le_refl _
    · split at refused <;> cases refused
  · rename_i fixed
    split at refused
    · cases refused
      exact .tooFew isOpen isClose splits ‹_›
    · split at refused
      · cases refused
        exact .tooMany isOpen isClose splits (by simpa using fixed) ‹_›
      · cases refused

end Arguments

/-! ## Positions -/

namespace Parameters

variable {p : Parameters}

/-- The number of arguments that the parameters take. -/
def arity (p : Parameters) : Nat :=
  p.named.length + if p.variadic.isSome then 1 else 0

theorem index?_lt {name : Text} {position : Nat} (found : p.index? name = some position) :
    position < p.arity := by
  unfold index? at found
  split at found
  · rename_i i named
    cases found
    exact Nat.lt_of_lt_of_le (List.findIdx?_eq_some_iff_findIdx_eq.mp named).1 (Nat.le_add_right _ _)
  · split at found
    · rename_i variadic
      cases found
      have variadic : p.variadic = some name := by simpa using variadic
      simp [arity, variadic]
    · cases found

theorem indexOf?_lt {token : Token} {position : Nat} (found : p.indexOf? token = some position) :
    position < p.arity := by
  unfold indexOf? at found
  split at found
  · exact index?_lt found
  · cases found

end Parameters

namespace Operation

/-- The argument that an operation uses. -/
def position? : Operation → Option Nat
  | .argument _ position => some position
  | .leftOperand _ position => some position
  | .stringize _ position => some position
  | .comma _ position => some position
  | .pasteArgument _ position => some position
  | .copy _ => none
  | .pasteOptional _ _ => none
  | .pasteToken _ _ => none
  | .optional _ _ _ => none

theorem position_readPaste {p : Parameters} {paste operand : Token} {rest : List Token}
    {position : Nat} (uses : (readPaste p paste operand rest).1.position? = some position) :
    position < p.arity := by
  unfold readPaste at uses
  split at uses
  · rename_i found
    cases uses
    exact Parameters.indexOf?_lt found
  · split at uses <;> cases uses

theorem position_readOperand {p : Parameters} {token : Token} {rest : List Token} {position : Nat}
    (uses : (readOperand p token rest).1.position? = some position) : position < p.arity := by
  unfold readOperand at uses
  simp only [] at uses
  split at uses
  · rename_i found
    cases uses
    split at found
    · exact Parameters.indexOf?_lt found
    · cases found
  · split at uses
    · split at uses <;> cases uses
    · split at uses
      · rename_i found
        cases uses
        exact Parameters.indexOf?_lt found
      · cases uses

/-- Every operation uses an argument that there is a parameter for. -/
theorem position_lt (p : Parameters) (token : Token) (rest : List Token) {position : Nat}
    (uses : (read p token rest).1.position? = some position) : position < p.arity := by
  unfold read at uses
  split at uses
  · rename_i found string
    cases rest with
    | nil => cases string
    | cons next after =>
      rw [readString?] at string
      split at string
      · obtain ⟨index, found, rfl⟩ := Option.map_eq_some_iff.mp string
        cases uses
        exact Parameters.indexOf?_lt found
      · cases string
  · split at uses
    · rename_i found comma
      obtain ⟨isSome, same⟩ : p.variadic.isSome = true ∧ found.1.position? = some p.named.length := by
        rcases rest with _ | ⟨paste, _ | ⟨next, after⟩⟩
        · cases comma
        · cases comma
        · rw [readComma?] at comma
          split at comma
          · rename_i isComma
            cases comma
            simp only [Bool.and_eq_true, Parameters.isVariadicAt] at isComma
            exact ⟨isComma.2.1, rfl⟩
          · cases comma
      cases uses.symm.trans same
      simp [Parameters.arity, isSome]
    · split at uses
      · split at uses
        · exact position_readPaste uses
        · exact position_readOperand uses
      · exact position_readOperand uses

end Operation

/-! ## Calls -/

/-- The call takes these tokens after its name: a parenthesis, the arguments with the commas that
separate them, and the first parenthesis that closes the call. Every argument is balanced, and there
is one for every position that an operation of the replacement list uses. -/
structure Call.Collects (c : Call) (p : Parameters) (taken : List Token) : Prop where
  split : ∃ opening between close pieces, taken = opening :: (between ++ [close])
    ∧ opening.isOpen = true ∧ close.isClose = true ∧ Arguments.IsBalanced between
    ∧ Arguments.Splits (Arguments.separators p) between pieces ∧ Arguments.Fits p pieces c.arguments
  balanced : ∀ argument ∈ c.arguments, Arguments.IsBalanced argument
  inRange : ∀ token rest position, (Operation.read p token rest).1.position? = some position →
    position < c.arguments.length

namespace Arguments

theorem IsBalanced.nil : IsBalanced [] :=
  isBalanced_iff.mpr rfl

namespace Fits

variable {p : Parameters} {pieces arguments : List (List Token)} (fits : Fits p pieces arguments)
include fits

/-- Every parameter has an argument. -/
theorem arity_le : p.arity ≤ arguments.length := by
  unfold Parameters.arity
  cases variadic : p.variadic with
  | some name => exact (fits.variadic (by rw [variadic]; rfl)).ge
  | none =>
    by_cases some : p.named = []
    · simp [some]
    · exact (fits.named variadic some).ge

theorem balanced (pieces : ∀ piece ∈ pieces, IsBalanced piece) :
    ∀ argument ∈ arguments, IsBalanced argument := by
  obtain rfl | ⟨-, -, rfl⟩ := fits.taken
  · exact pieces
  · exact List.forall_mem_append.mpr ⟨pieces, List.forall_mem_singleton.mpr .nil⟩

end Fits

end Arguments

/-- A function-like macro with a parenthesis after its name is called with an argument for each of its
parameters, or the call is refused, and then all that follows the name is still there. -/
theorem Head.ofMacro_collects {m : Macro} {p : Parameters} {body : List Token}
    (isFunction : m.replacement = .function p body) (site : Token) {opening : Token}
    (isOpen : opening.isOpen = true) (inner : List Token) :
    (∃ c taken, ofMacro m site (opening :: inner) = .call c ∧ c.called = m ∧ c.site = site
      ∧ opening :: inner = taken ++ c.rest ∧ c.Collects p taken)
    ∨ ∃ code, ofMacro m site (opening :: inner) = .rejected code site (opening :: inner)
      ∧ Arguments.Refuses p code (opening :: inner) := by
  simp only [ofMacro, isFunction, isOpen, if_true]
  cases read : Arguments.read (Arguments.separators p) 0 inner with
  | none =>
    obtain ⟨inside, after, rfl, more, opened, ends⟩ := Arguments.unclosed_of_read read
    exact .inr ⟨_, rfl, .unclosed isOpen more opened ends⟩
  | some a =>
    obtain ⟨isClose, between, splits, rfl⟩ := Arguments.splits_of_read read
    simp only []
    cases fit : Arguments.fit p a.pieces with
    | error code => exact .inr ⟨_, rfl, Arguments.refuses_of_fit isOpen isClose splits fit⟩
    | ok arguments =>
      have fits := Arguments.fits_of_fit splits fit
      refine .inl ⟨_, opening :: (between ++ [a.close]), rfl, rfl, rfl, by simp, ?_⟩
      exact {
        split := ⟨_, _, _, _, rfl, isOpen, isClose, splits.isBalanced, splits, fits⟩
        balanced := fits.balanced splits.balanced
        inRange := fun token rest _ uses =>
          (Operation.position_lt p token rest uses).trans_le fits.arity_le }

end CPreprocessor
