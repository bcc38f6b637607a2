/-
# Replacement lists as chains of operands

A replacement list without variable arguments consists of operands, and those with `##`
between them form a chain. `Chain.split` takes a list apart in this way, and
`Chain.expandEach` says what it stands for: a parameter alone stands for its expanded
argument, and a chain is pasted from the left, where an operand without tokens leaves the
other side as it is. Substitution knows no chains: it goes on with whatever it produced
last, and notes only that the left side is empty. That both do the same
(`run_eq_chains`) rests on one invariant: after each operand of a chain, what was produced
since the chain began is what the chain has come to (`Holds`).
-/
import CPreprocessor.Proofs.Directive.Definitions
import Mathlib.Data.List.Chain

namespace CPreprocessor

/-- A part of a replacement list that can stand next to `##`. -/
inductive Operand where
  | plain (token : Token)
  | parameter (token : Token) (position : Nat)
  /-- `#` and the parameter after it. -/
  | string (hash operand : Token) (position : Nat)

/-- Operands with `##` between them, or one operand alone. -/
structure Chain where
  first : Operand
  /-- The other operands, each with the `##` before it. -/
  more : List (Token × Operand)

namespace Operand

/-- The operand that one token is. -/
def ofToken (p : Parameters) (token : Token) : Operand :=
  match p.indexOf? token with
  | some position => .parameter token position
  | none => .plain token

/-- The operand at the head of `token :: rest`, and what follows it. -/
def read (p : Parameters) (token : Token) : List Token → Operand × List Token
  | [] => (ofToken p token, [])
  | next :: rest =>
    match if token.isHash then p.indexOf? next else none with
    | some position => (.string token next position, rest)
    | none => (ofToken p token, next :: rest)

/-- The tokens of the replacement list that the operand is made of. -/
def tokens : Operand → List Token
  | plain token => [token]
  | parameter token _ => [token]
  | string hash operand _ => [hash, operand]

/-- What an operand next to `##` stands for: an argument as it was written, a string, or the token
itself. -/
def value (args : List Argument) : Operand → List Token
  | plain token => [token]
  | parameter _ position => Substitution.written args position
  | string hash _ position => [Substitution.stringize hash (Substitution.written args position)]

theorem length_read_le (p : Parameters) (token : Token) (rest : List Token) :
    (read p token rest).2.length ≤ rest.length := by
  cases rest with
  | nil => exact Nat.le_refl _
  | cons next rest =>
    rw [read]
    split
    · exact Nat.le_succ _
    · exact Nat.le_refl _

theorem ofToken_tokens (p : Parameters) (token : Token) : (ofToken p token).tokens = [token] := by
  unfold ofToken
  split <;> rfl

/-- A token that makes no string is an operand by itself. -/
theorem read_of_not_isHash {p : Parameters} {token : Token} (plain : token.isHash = false)
    (rest : List Token) : read p token rest = (ofToken p token, rest) := by
  cases rest with
  | nil => rfl
  | cons next rest => simp [read, plain]

theorem head?_tokens_read (p : Parameters) (token : Token) (rest : List Token) :
    (read p token rest).1.tokens.head? = some token := by
  cases rest with
  | nil => rw [read, ofToken_tokens]; rfl
  | cons next rest =>
    rw [read]
    split
    · rfl
    · rw [ofToken_tokens]; rfl

/-- An operand and what follows it are the list. -/
theorem tokens_read (p : Parameters) (token : Token) (rest : List Token) :
    (read p token rest).1.tokens ++ (read p token rest).2 = token :: rest := by
  cases rest with
  | nil => rw [read, ofToken_tokens]; rfl
  | cons next rest =>
    rw [read]
    split
    · rfl
    · rw [ofToken_tokens]; rfl

end Operand

namespace Chain

/-- The operands that are pasted to the one before a list, and what follows them. -/
def readMore (p : Parameters) : List Token → List (Token × Operand) × List Token
  | paste :: next :: rest =>
    if paste.isPaste then
      let operand := Operand.read p next rest
      let more := readMore p operand.2
      ((paste, operand.1) :: more.1, more.2)
    else
      ([], paste :: next :: rest)
  | rest => ([], rest)
  termination_by tokens => tokens.length
  decreasing_by
    exact Nat.lt_succ_of_le (Nat.le_succ_of_le (Operand.length_read_le p next rest))

theorem length_readMore_le (p : Parameters) (tokens : List Token) :
    (readMore p tokens).2.length ≤ tokens.length := by
  fun_induction readMore p tokens with
  | case1 paste next rest isPaste operand more ih =>
    have := Operand.length_read_le p next rest
    simp only [operand, more, List.length_cons] at ih ⊢
    omega
  | case2 => exact Nat.le_refl _
  | case3 => exact Nat.le_refl _

/-- The chains of a replacement list, each as long as it can be. -/
def split (p : Parameters) : List Token → List Chain
  | [] => []
  | token :: rest =>
    let first := Operand.read p token rest
    let more := readMore p first.2
    { first := first.1, more := more.1 } :: split p more.2
  termination_by tokens => tokens.length
  decreasing_by
    have := Operand.length_read_le p token rest
    have := length_readMore_le p (Operand.read p token rest).2
    simp only [List.length_cons]
    omega

/-- The tokens of the replacement list that the chain is made of. -/
def tokens (chain : Chain) : List Token :=
  chain.first.tokens ++ chain.more.flatMap fun (paste, operand) => paste :: operand.tokens

theorem tokens_readMore (p : Parameters) (rest : List Token) :
    ((readMore p rest).1.flatMap fun (paste, operand) => paste :: operand.tokens)
      ++ (readMore p rest).2 = rest := by
  fun_induction readMore p rest with
  | case1 paste next rest isPaste operand more ih =>
    simp only [List.flatMap_cons, List.cons_append, List.append_assoc, more, ih]
    rw [Operand.tokens_read]
  | case2 => rfl
  | case3 => rfl

/-- The chains of a list are the list. -/
theorem flatMap_tokens_split (p : Parameters) (body : List Token) :
    (split p body).flatMap tokens = body := by
  fun_induction split p body with
  | case1 => rfl
  | case2 token rest first more ih =>
    rw [List.flatMap_cons, ih, tokens, List.append_assoc, tokens_readMore, Operand.tokens_read]

/-- Only `##` joins the operands of a chain. -/
theorem isPaste_of_mem_readMore {p : Parameters} {rest : List Token} {link : Token × Operand}
    (member : link ∈ (readMore p rest).1) : link.1.isPaste = true := by
  fun_induction readMore p rest with
  | case1 paste next rest isPaste operand more ih =>
    obtain rfl | later := List.mem_cons.mp member
    · exact isPaste
    · exact ih later
  | case2 => cases member
  | case3 => cases member

theorem isPaste_of_mem_split {p : Parameters} {body : List Token} {chain : Chain}
    (member : chain ∈ split p body) : ∀ link ∈ chain.more, link.1.isPaste = true := by
  fun_induction split p body with
  | case1 => cases member
  | case2 token rest first more ih =>
    obtain rfl | later := List.mem_cons.mp member
    · exact fun _ link => isPaste_of_mem_readMore link
    · exact ih later

/-! ## What chains stand for -/

section Values

variable (language : Language) (args : List Argument)

/-- Paste one list to another. If one of them is empty the other one is left; otherwise only the last
token of the left one and the first token of the right one are pasted. -/
def pasteTo (left right : List Token) (state : Expansion.State) : List Token × Expansion.State :=
  match left.getLast?, right with
  | none, _ => (right, state)
  | some _, [] => (left, state)
  | some last, first :: rest =>
    let pasted := Substitution.paste language last first state
    (left.dropLast ++ pasted.1 ++ rest, pasted.2)

/-- Paste operands to what stands before them, one after the other. -/
def fold (left : List Token) (state : Expansion.State) :
    List (Token × Operand) → List Token × Expansion.State
  | [] => (left, state)
  | (_, operand) :: more =>
    let pasted := pasteTo language left (operand.value args) state
    fold pasted.1 pasted.2 more

/-- What a chain stands for. Only a parameter that is not pasted is expanded. Of the substitution only
the arguments expanded so far, the counter and the reports count. -/
def expand (chain : Chain) (s : Substitution) : List Token × Substitution :=
  match chain.first, chain.more with
  | .parameter _ position, [] => Substitution.expandArgument args s position
  | first, more =>
    let folded := fold language args (first.value args) s.state more
    (folded.1, { s with state := folded.2 })

/-- What some chains stand for, one after the other. -/
def expandEach : List Chain → Substitution → List Token × Substitution
  | [], s => ([], s)
  | chain :: rest, s =>
    let here := chain.expand language args s
    let later := expandEach rest here.2
    (here.1 ++ later.1, later.2)

end Values

end Chain

/-! ## White space

A chain does not say what stands before its tokens. -/

/-- The token as if no white space stood before it. -/
def Token.unspaced (token : Token) : Token :=
  token.withSpace false

@[simp] theorem Token.lexeme_withSpace (token : Token) (afterSpace : Bool) :
    (token.withSpace afterSpace).lexeme = token.lexeme := (rfl)

@[simp] theorem Token.file_withSpace (token : Token) (afterSpace : Bool) :
    (token.withSpace afterSpace).file = token.file := (rfl)

namespace Substitution

theorem map_unspaced_spaced (afterSpace : Bool) (tokens : List Token) :
    (spaced afterSpace tokens).map Token.unspaced = tokens.map Token.unspaced := by
  cases tokens <;> rfl

/-- White space before the left token makes no difference to pasting. -/
theorem pasted?_withSpace (language : Language) (left right : Token) (afterSpace : Bool) :
    pasted? language (left.withSpace afterSpace) right
      = (pasted? language left right).map fun token => token.withSpace afterSpace := by
  simp only [pasted?, Token.lexeme_withSpace, Token.file_withSpace]
  split
  · rename_i token final lexed
    by_cases fits : (token.error.isNone && token.lexeme == left.lexeme ++ right.lexeme) = true
    · simp only [if_pos fits, Option.map_some]
      rfl
    · simp only [if_neg fits, Option.map_none]
  · rfl

theorem paste_congr (language : Language) {left left' : Token} (same : left.unspaced = left'.unspaced)
    (right : Token) (state : Expansion.State) :
    (paste language left right state).1.map Token.unspaced
        = (paste language left' right state).1.map Token.unspaced
      ∧ (paste language left right state).2 = (paste language left' right state).2 := by
  have left_eq : left = left'.withSpace left.afterSpace :=
    calc left = left.unspaced.withSpace left.afterSpace := rfl
      _ = left'.withSpace left.afterSpace := by rw [same]; rfl
  rw [left_eq]
  unfold paste
  rw [pasted?_withSpace]
  cases pasted? language left' right <;> exact ⟨rfl, rfl⟩

/-- Pasting gives something. -/
theorem paste_ne_nil (language : Language) (left right : Token) (state : Expansion.State) :
    (paste language left right state).1 ≠ [] := by
  unfold paste
  split <;> simp

end Substitution

/-! ## Operations of a list without variable arguments -/

/-- What substitution does with an operand before `after` that is not pasted to what stands before
it. -/
def Operand.operation (after : List Token) : Operand → Operation
  | string hash _ position => .stringize hash position
  | parameter token position =>
    if Operation.startsWithPaste after then .leftOperand token position else .argument token position
  | plain token => .copy token

theorem Operand.content_operation (operand : Operand) (after : List Token) :
    (operand.operation after).content = [] := by
  unfold Operand.operation
  cases operand with
  | parameter token position => cases Operation.startsWithPaste after <;> rfl
  | plain token => rfl
  | string hash operand position => rfl

namespace Operation

variable {p : Parameters} (fixed : p.variadic = none)
include fixed

theorem readComma?_of_fixed (token : Token) (rest : List Token) : readComma? p token rest = none := by
  rcases rest with _ | ⟨paste, _ | ⟨next, after⟩⟩
  · rfl
  · rfl
  · simp [readComma?, Parameters.isVariadicAt, fixed]

/-- An operand that is not pasted to what stands before it. -/
theorem read_of_not_isPaste {token : Token} (plain : token.isPaste = false) (rest : List Token) :
    read p token rest
      = ((Operand.read p token rest).1.operation (Operand.read p token rest).2,
        (Operand.read p token rest).2) := by
  have single (rest : List Token) :
      readOperand p token rest = ((Operand.ofToken p token).operation rest, rest) := by
    unfold readOperand Operand.ofToken
    simp only [Parameters.isOptional, fixed, Option.isSome_none, Bool.false_and, Bool.false_eq_true,
      if_false]
    cases p.indexOf? token with
    | none => cases startsWithPaste rest <;> rfl
    | some position => cases pasted : startsWithPaste rest <;> simp [Operand.operation, pasted]
  have stays {next : Token} {after : List Token} (noString : readString? p token (next :: after) = none)
      (alone : Operand.read p token (next :: after) = (Operand.ofToken p token, next :: after)) :
      read p token (next :: after)
        = ((Operand.read p token (next :: after)).1.operation (Operand.read p token (next :: after)).2,
          (Operand.read p token (next :: after)).2) := by
    unfold read
    rw [readComma?_of_fixed fixed, noString, alone]
    simpa [plain] using single (next :: after)
  cases rest with
  | nil => exact single []
  | cons next after =>
    cases hash : token.isHash with
    | false => exact stays (by simp [readString?, hash]) (by simp [Operand.read, hash])
    | true =>
      cases found : p.indexOf? next with
      | none => exact stays (by simp [readString?, found]) (by simp [Operand.read, found])
      | some position => simp [read, readString?, Operand.read, Operand.operation, hash, found]

/-- An operand that is pasted to what stands before it. -/
theorem read_of_isPaste {paste : Token} (isPaste : paste.isPaste = true) (next : Token)
    (rest : List Token) :
    read p paste (next :: rest) =
      match Operand.ofToken p next with
      | .parameter _ position => (.pasteArgument paste position, rest)
      | _ => (.pasteToken paste next, rest) := by
  have notHash : paste.isHash = false := Bool.eq_false_iff.mpr fun isHash =>
    absurd isPaste (by simp [Token.isPaste_of_isHash isHash])
  have noString : readString? p paste (next :: rest) = none := by
    simp [readString?, notHash]
  unfold read
  rw [noString, readComma?_of_fixed fixed]
  simp only [isPaste, if_true]
  unfold readPaste Operand.ofToken
  cases p.indexOf? next with
  | some position => rfl
  | none => simp [Parameters.isOptional, fixed]

end Operation

/-! ## Carrying out a chain -/

/-- The list does not end with `##`, and no `##` has a `#` or another `##` as its right operand. -/
structure PastesOperands (tokens : List Token) : Prop where
  last : ∀ token ∈ tokens.getLast?, token.isPaste = false
  operands : tokens.IsChain fun before token =>
    before.isPaste = true → token.isHash = false ∧ token.isPaste = false

theorem PastesOperands.suffix {after : List Token} (before : List Token)
    (pastes : PastesOperands (before ++ after)) :
    PastesOperands after where
  last token isLast := pastes.last token (by simp_all [List.getLast?_append])
  operands := pastes.operands.suffix ⟨before, rfl⟩

theorem PastesOperands.suffix_cons {token : Token} {rest : List Token}
    (pastes : PastesOperands (token :: rest)) : PastesOperands rest :=
  suffix [token] pastes

theorem PastesOperands.after_operand {token : Token} {rest : List Token}
    (pastes : PastesOperands (token :: rest)) (p : Parameters) :
    PastesOperands (Operand.read p token rest).2 :=
  suffix (Operand.read p token rest).1.tokens (Operand.tokens_read p token rest ▸ pastes)

theorem PastesOperands.after_operands {tokens : List Token} (pastes : PastesOperands tokens)
    (p : Parameters) : PastesOperands (Chain.readMore p tokens).2 :=
  suffix _ (Chain.tokens_readMore p tokens ▸ pastes)

/-- A list that starts with `##` goes on with an operand. -/
theorem PastesOperands.exists_of_startsWithPaste {tokens : List Token} (pastes : PastesOperands tokens)
    (starts : Operation.startsWithPaste tokens = true) :
    ∃ paste next rest, tokens = paste :: next :: rest ∧ paste.isPaste = true := by
  rcases tokens with _ | ⟨paste, _ | ⟨next, rest⟩⟩
  · cases starts
  · exact absurd (pastes.last paste rfl) (Bool.not_eq_false _ ▸ starts)
  · exact ⟨paste, next, rest, rfl, starts⟩

theorem Chain.readMore_of_not_startsWithPaste {p : Parameters} {tokens : List Token}
    (stops : Operation.startsWithPaste tokens = false) : readMore p tokens = ([], tokens) := by
  rcases tokens with _ | ⟨token, _ | ⟨next, rest⟩⟩
  · rw [readMore]; simp
  · rw [readMore]; simp
  · have noPaste : ¬ token.isPaste = true := by simpa [Operation.startsWithPaste] using stops
    rw [readMore, if_neg noPaste]

/-- What follows a chain does not start with `##`. -/
theorem PastesOperands.startsWithPaste_readMore {p : Parameters} {tokens : List Token}
    (pastes : PastesOperands tokens) :
    Operation.startsWithPaste (Chain.readMore p tokens).2 = false := by
  fun_induction Chain.readMore p tokens with
  | case1 paste next rest isPaste operand more ih =>
    have later : PastesOperands (next :: rest) := pastes.suffix_cons
    exact ih (later.after_operand p)
  | case2 paste next rest noPaste => exact Bool.not_eq_true _ ▸ noPaste
  | case3 rest single =>
    cases starts : Operation.startsWithPaste rest with
    | false => rfl
    | true =>
      obtain ⟨paste, next, after, rfl, -⟩ := pastes.exists_of_startsWithPaste starts
      exact absurd rfl (single paste next after)

namespace Substitution

variable {language : Language} {args : List Argument} {p : Parameters} {s : Substitution}
  {base left : List Token}

theorem emit_result (s : Substitution) (tokens : List Token) :
    (s.emit tokens).result = s.result ++ tokens := by
  simp [emit, Substitution.result]

/-- An operation without a part of its own is carried out, and then what follows it. -/
theorem run_cons (language : Language) (args : List Argument) {token : Token}
    {rest after : List Token} {operation : Operation}
    (read : Operation.read p token rest = (operation, after)) (single : operation.content = [])
    (s : Substitution) :
    run language p args (token :: rest) s
      = run language p args after (s.apply language args [] operation) := by
  rw [run, read]
  have nothing : run language p args [] s.inner = s.inner := by rw [run]
  simp only [single, nothing, ite_self]
  rfl

/-- What was produced since `base` is what the chain has come to; only if this is nothing, that is
noted. -/
structure Holds (base left : List Token) (s : Substitution) : Prop where
  result : s.result.map Token.unspaced = base ++ left.map Token.unspaced
  placemarker : s.placemarker = none ↔ left ≠ []

theorem Chain.pasteTo_nil_left (right : List Token) (state : Expansion.State) :
    Chain.pasteTo language [] right state = (right, state) := rfl

theorem Chain.pasteTo_nil_right (left : List Token) (state : Expansion.State) :
    Chain.pasteTo language left [] state = (left, state) := by
  unfold Chain.pasteTo
  cases last : left.getLast? with
  | none => rw [List.getLast?_eq_none_iff.mp last]
  | some token => rfl

theorem Chain.pasteTo_concat (left rest : List Token) (last first : Token) (state : Expansion.State) :
    Chain.pasteTo language (left ++ [last]) (first :: rest) state
      = (left ++ (paste language last first state).1 ++ rest, (paste language last first state).2) := by
  simp [Chain.pasteTo]

/-- Pasting to what was produced last is pasting to what the chain has come to. -/
theorem Holds.pasteOn (holds : Holds base left s) (hash : Token) (right : List Token) :
    Holds base (Chain.pasteTo language left right s.state).1 (pasteOn language s hash right)
      ∧ (pasteOn language s hash right).inner
        = { s.inner with state := (Chain.pasteTo language left right s.state).2 } := by
  cases right with
  | nil =>
    rw [Chain.pasteTo_nil_right]
    exact ⟨holds, rfl⟩
  | cons first rest =>
    obtain rfl | ⟨init, last, rfl⟩ := left.eq_nil_or_concat
    · cases marked : s.placemarker with
      | none => exact absurd rfl (holds.placemarker.mp marked)
      | some afterSpace =>
        have pasted : Substitution.pasteOn language s hash (first :: rest)
            = s.emit (spaced afterSpace (first :: rest)) := by
          simp only [Substitution.pasteOn, marked]
        rw [Chain.pasteTo_nil_left, pasted]
        refine ⟨⟨?_, by simp [emit]⟩, rfl⟩
        rw [emit_result, List.map_append, map_unspaced_spaced, holds.result, List.map_nil,
          List.append_nil]
    · rw [List.concat_eq_append] at holds ⊢
      have unmarked : s.placemarker = none := holds.placemarker.mpr (by simp)
      have result := holds.result
      cases produced : s.produced with
      | nil => simp [Substitution.result, produced] at result
      | cons before earlier =>
        simp only [Substitution.result, produced, List.reverse_cons, List.map_append, List.map_cons,
          List.map_nil, ← List.append_assoc] at result
        obtain ⟨others, same⟩ := List.append_inj' result rfl
        obtain ⟨tokens, state⟩ :=
          paste_congr language (List.singleton_inj.mp same) first s.state
        have pasted : Substitution.pasteOn language s hash (first :: rest)
            = { s with
                produced := rest.reverse ++ (paste language before first s.state).1.reverse ++ earlier
                state := (paste language before first s.state).2 } := by
          simp only [Substitution.pasteOn, unmarked, produced]
        rw [Chain.pasteTo_concat, pasted]
        refine ⟨⟨?_, ?_⟩, ?_⟩
        · simp [Substitution.result, others, tokens]
        · simp [unmarked, paste_ne_nil]
        · simp [inner, state]

/-- The operands after the first one are pasted one by one. -/
theorem Holds.run_readMore (fixed : p.variadic = none) {rest : List Token}
    (pastes : PastesOperands rest) (holds : Holds base left s) :
    ∃ t, run language p args rest s = run language p args (Chain.readMore p rest).2 t
      ∧ Holds base (Chain.fold language args left s.state (Chain.readMore p rest).1).1 t
      ∧ t.inner = { s.inner with
          state := (Chain.fold language args left s.state (Chain.readMore p rest).1).2 } := by
  fun_induction Chain.readMore p rest generalizing left s with
  | case1 paste next rest isPaste operand =>
    rename_i more ih
    have notHash := ((List.isChain_cons_cons.mp pastes.operands).1 isPaste).1
    have alone : operand = (Operand.ofToken p next, rest) :=
      Operand.read_of_not_isHash notHash rest
    simp only [more, alone] at ih ⊢
    have pasted : run language p args (paste :: next :: rest) s
        = run language p args rest
          (Substitution.pasteOn language s paste ((Operand.ofToken p next).value args)) := by
      have read := Operation.read_of_isPaste fixed isPaste next rest
      unfold Operand.ofToken at read ⊢
      cases found : p.indexOf? next with
      | none => rw [found] at read; exact run_cons language args read rfl s
      | some position => rw [found] at read; exact run_cons language args read rfl s
    obtain ⟨holds', inner'⟩ := holds.pasteOn paste ((Operand.ofToken p next).value args)
    have state' := congrArg Substitution.state inner'
    obtain ⟨t, reading, holding, inner⟩ := ih pastes.suffix_cons.suffix_cons holds'
    rw [inner'] at inner
    rw [show (Substitution.pasteOn language s paste ((Operand.ofToken p next).value args)).state
      = _ from state'] at holding inner
    exact ⟨t, pasted.trans reading, holding, inner⟩
  | case2 => exact ⟨s, rfl, holds, rfl⟩
  | case3 => exact ⟨s, rfl, holds, rfl⟩

theorem expandArgument_inner (s : Substitution) (position : Nat) :
    expandArgument args s.inner position
      = ((expandArgument args s position).1, (expandArgument args s position).2.inner) := by
  unfold expandArgument
  simp only [inner]
  cases s.expanded.lookup position with
  | some tokens => rfl
  | none => cases args[position]? <;> rfl

theorem expandArgument_result (s : Substitution) (position : Nat) :
    (expandArgument args s position).2.result = s.result := by
  unfold expandArgument
  cases s.expanded.lookup position with
  | some tokens => rfl
  | none => cases args[position]? <;> rfl

/-- What was produced so far makes no difference to what a chain stands for. -/
theorem Chain.expand_inner (chain : Chain) (s : Substitution) :
    chain.expand language args s.inner
      = ((chain.expand language args s).1, (chain.expand language args s).2.inner) := by
  unfold Chain.expand
  obtain ⟨first, more⟩ := chain
  cases first with
  | plain token => rfl
  | string hash operand position => rfl
  | parameter token position =>
    cases more with
    | nil => exact expandArgument_inner s position
    | cons link more => rfl

theorem Chain.expandEach_inner (chains : List Chain) (s : Substitution) :
    Chain.expandEach language args chains s.inner
      = ((Chain.expandEach language args chains s).1,
        (Chain.expandEach language args chains s).2.inner) := by
  induction chains generalizing s with
  | nil => rfl
  | cons chain rest ih => simp only [Chain.expandEach, Chain.expand_inner, ih]

/-- An operand before `##` that is not pasted to what stands before it begins a chain. -/
theorem holds_operation (language : Language) (args : List Argument) (s : Substitution)
    (operand : Operand) {after : List Token}
    (starts : Operation.startsWithPaste after = true) :
    Holds (s.result.map Token.unspaced) (operand.value args)
        (s.apply language args [] (operand.operation after))
      ∧ (s.apply language args [] (operand.operation after)).inner = s.inner := by
  have emitted {tokens written : List Token} (same : tokens.map Token.unspaced = written.map Token.unspaced)
      (some : written ≠ []) :
      Holds (s.result.map Token.unspaced) written (s.emit tokens) ∧ (s.emit tokens).inner = s.inner :=
    ⟨⟨by rw [emit_result, List.map_append, same], by simp [emit, some]⟩, rfl⟩
  cases operand with
  | plain token => exact emitted rfl (by simp [Operand.value])
  | string hash operand position => exact emitted rfl (by simp [Operand.value])
  | parameter token position =>
    simp only [Operand.operation, starts, if_true, Substitution.apply, Operand.value]
    by_cases empty : written args position = []
    · rw [if_pos empty, empty]
      exact ⟨⟨by simp [Substitution.result], by simp⟩, rfl⟩
    · rw [if_neg empty]
      exact emitted (map_unspaced_spaced _ _) empty

/-- An operand without `##` at either side is a chain by itself. -/
theorem apply_operation_alone (language : Language) (args : List Argument) (s : Substitution)
    (operand : Operand) {after : List Token}
    (alone : Operation.startsWithPaste after = false) :
    let t := s.apply language args [] (operand.operation after)
    let expanded := Chain.expand language args ⟨operand, []⟩ s
    t.result.map Token.unspaced = s.result.map Token.unspaced ++ expanded.1.map Token.unspaced
      ∧ t.inner = expanded.2.inner := by
  cases operand with
  | plain token => exact ⟨by simp [Operand.operation, Substitution.apply, emit_result]; rfl, rfl⟩
  | string hash operand position =>
    exact ⟨by simp [Operand.operation, Substitution.apply, emit_result]; rfl, rfl⟩
  | parameter token position =>
    simp only [Operand.operation, alone, Bool.false_eq_true, if_false, Substitution.apply]
    refine ⟨?_, rfl⟩
    rw [emit_result, List.map_append, expandArgument_result, map_unspaced_spaced]
    rfl

theorem Chain.expand_of_more (first : Operand) {more : List (Token × Operand)} (some : more ≠ [])
    (s : Substitution) :
    Chain.expand language args ⟨first, more⟩ s
      = ((Chain.fold language args (first.value args) s.state more).1,
        { s with state := (Chain.fold language args (first.value args) s.state more).2 }) := by
  cases more with
  | nil => exact absurd rfl some
  | cons link more => cases first <;> rfl

/-- One chain is carried out, and then what follows it. -/
theorem run_chain (language : Language) (args : List Argument) (fixed : p.variadic = none)
    {token : Token} {rest : List Token}
    (plain : token.isPaste = false) (pastes : PastesOperands (token :: rest)) (s : Substitution) :
    let first := Operand.read p token rest
    let more := Chain.readMore p first.2
    let expanded := Chain.expand language args ⟨first.1, more.1⟩ s
    ∃ t, run language p args (token :: rest) s = run language p args more.2 t
      ∧ t.result.map Token.unspaced
        = s.result.map Token.unspaced ++ expanded.1.map Token.unspaced
      ∧ t.inner = expanded.2.inner := by
  intro first more expanded
  have first_run := run_cons language args
    (Operation.read_of_not_isPaste fixed plain rest) (Operand.content_operation _ _) s
  cases starts : Operation.startsWithPaste first.2 with
  | true =>
    have later : PastesOperands first.2 := pastes.after_operand p
    obtain ⟨holds, inner⟩ := holds_operation language args s first.1 starts
    obtain ⟨t, more_run, holding, inner'⟩ := holds.run_readMore fixed later
    have goesOn : more.1 ≠ [] := by
      obtain ⟨paste, next, after, form, isPaste⟩ := later.exists_of_startsWithPaste starts
      simp only [more, form, Chain.readMore, isPaste, if_true]
      exact List.cons_ne_nil _ _
    have state : (s.apply language args [] (first.1.operation first.2)).state = s.state :=
      (congrArg Substitution.state inner :)
    rw [state] at holding inner'
    simp only [expanded, Chain.expand_of_more first.1 goesOn]
    exact ⟨t, first_run.trans more_run, holding.result, inner'.trans (by rw [inner]; rfl)⟩
  | false =>
    obtain ⟨result, inner⟩ :=
      apply_operation_alone language args s first.1 starts
    have alone : more = ([], first.2) := Chain.readMore_of_not_startsWithPaste starts
    simp only [expanded, alone]
    exact ⟨_, first_run, result, inner⟩

/-- All the chains of a list are carried out one after the other. -/
theorem run_split (language : Language) (args : List Argument) (fixed : p.variadic = none)
    {body : List Token}
    (starts : Operation.startsWithPaste body = false) (pastes : PastesOperands body)
    (s : Substitution) :
    (run language p args body s).result.map Token.unspaced
        = s.result.map Token.unspaced
          ++ (Chain.expandEach language args (Chain.split p body) s).1.map Token.unspaced
      ∧ (run language p args body s).inner
        = (Chain.expandEach language args (Chain.split p body) s).2.inner := by
  fun_induction Chain.split p body generalizing s with
  | case1 => simp [run, Chain.expandEach]
  | case2 token rest first more ih =>
    obtain ⟨t, reading, result, inner⟩ :=
      run_chain language args fixed starts pastes s
    have after : PastesOperands first.2 := pastes.after_operand p
    obtain ⟨result', inner'⟩ := ih after.startsWithPaste_readMore (after.after_operands p) t
    have same : Chain.expandEach language args (Chain.split p more.2) t.inner
        = Chain.expandEach language args (Chain.split p more.2)
          (Chain.expand language args ⟨first.1, more.1⟩ s).2.inner := by rw [inner]
    rw [Chain.expandEach_inner, Chain.expandEach_inner] at same
    have tokens := congrArg Prod.fst same
    have left := congrArg Prod.snd same
    rw [reading, Chain.expandEach]
    refine ⟨?_, inner'.trans left⟩
    rw [result', result, List.append_assoc, List.map_append]
    exact congrArg (fun tokens => _ ++ (_ ++ List.map Token.unspaced tokens)) tokens

end Substitution

/-- No chain of such a list starts with `##`, so no chain could be longer. -/
theorem PastesOperands.startsWithPaste_of_mem_split {p : Parameters} {body : List Token}
    (starts : Operation.startsWithPaste body = false) (pastes : PastesOperands body) {chain : Chain}
    (member : chain ∈ Chain.split p body) : Operation.startsWithPaste chain.tokens = false := by
  fun_induction Chain.split p body with
  | case1 => cases member
  | case2 token rest first more ih =>
    have after : PastesOperands first.2 := pastes.after_operand p
    obtain rfl | later := List.mem_cons.mp member
    · obtain ⟨others, form⟩ := List.head?_eq_some_iff.mp (Operand.head?_tokens_read p token rest)
      simpa [Chain.tokens, first, form, Operation.startsWithPaste] using starts
    · exact ih after.startsWithPaste_readMore (after.after_operands p) later

namespace Substitution

/-- The replacement list of an accepted macro without variable arguments in which no `##` stands before
`#` or another `##` is a row of chains, each as long as it can be. Substitution produces what they
stand for, up to white space, and the same reports. -/
theorem run_eq_chains (language : Language) (args : List Argument) {name : Token}
    {tokens : List Token} {m : Macro} (accepted : Directive.readDefinition name tokens = .ok m)
    (fixed : m.parameters.variadic = none)
    (operands : m.body.IsChain fun before token =>
      before.isPaste = true → token.isHash = false ∧ token.isPaste = false)
    (state : Expansion.State) :
    let chains := Chain.split m.parameters m.body
    let expanded := Chain.expandEach language args chains { state }
    let done := run language m.parameters args m.body { state }
    chains.flatMap Chain.tokens = m.body
      ∧ (∀ chain ∈ chains, Operation.startsWithPaste chain.tokens = false
          ∧ ∀ link ∈ chain.more, link.1.isPaste = true)
      ∧ done.result.map Token.unspaced = expanded.1.map Token.unspaced
      ∧ done.state = expanded.2.state := by
  intro chains expanded done
  obtain ⟨first, last, -⟩ :=
    ReplacementList.facts_of_error? (Directive.error?_of_readDefinition accepted)
  have starts : Operation.startsWithPaste m.body = false := by
    cases body : m.body with
    | nil => rfl
    | cons token rest => exact first token (by rw [body]; rfl)
  have pastes : PastesOperands m.body := ⟨last, operands⟩
  obtain ⟨result, inner⟩ :=
    run_split language args fixed starts pastes { state }
  exact ⟨Chain.flatMap_tokens_split m.parameters m.body,
    fun chain member => ⟨pastes.startsWithPaste_of_mem_split starts member,
      Chain.isPaste_of_mem_split member⟩,
    result, (congrArg Substitution.state inner :)⟩

/-! A macro whose first argument is empty. -/

/-- A token that nothing stands before. -/
def glued (kind : TokenKind) (text : String) : Token :=
  { kind, lexeme := text.toList }

/-- `x ## y y #x ## x y`, with two parameters. -/
def chainedBody : List Token :=
  [glued .identifier "x", glued .punctuator "##", glued .identifier "y", glued .identifier "y",
    glued .punctuator "#", glued .identifier "x", glued .punctuator "##", glued .identifier "x",
    glued .identifier "y"]

/-- The macro `f(x, y)` with that replacement list. -/
def chained : Macro where
  name := "f".toList
  replacement := .function { named := ["x".toList, "y".toList] } chainedBody
  definedAt := some (glued .identifier "f")

/-- Nothing, and `1 2`, which expands to `3`. -/
def chainedArguments : List Argument :=
  [{ tokens := [], expand := fun state => ([], state) },
    { tokens := [glued .number "1", glued .number "2"],
      expand := fun state => ([glued .number "3"], state) }]

theorem readDefinition_chained :
    Directive.readDefinition (glued .identifier "f")
        ([glued .punctuator "(", glued .identifier "x", glued .punctuator ",", glued .identifier "y",
          glued .punctuator ")"] ++ chainedBody)
      = .ok chained := by
  rfl

/-- Pasting nothing and `1 2` gives `1 2`, and pasting the empty string and nothing gives the empty
string. -/
theorem run_eq_chains_empty_argument :
    ((run .standard chained.parameters chainedArguments chained.body { state := {} }).result.map
        Token.unspaced).map Token.lexeme
      = ["1".toList, "2".toList, "3".toList, "\"\"".toList, "3".toList] := by
  obtain ⟨-, -, produced, -⟩ :=
    run_eq_chains .standard chainedArguments readDefinition_chained rfl (by decide) {}
  rw [produced]
  decide +kernel

end Substitution

end CPreprocessor
