/-
# Where the tokens of a substitution come from

A token that substitution gives comes from an argument, from a replacement list, from `#` or
from `##`. So what holds of all these tokens, and does not depend on the white space before
them, holds of all that substitution gives (`Substitution.All.run`). What a replacement list
contributes are the tokens that its operations carry over as they are (`Operation.own`);
`Operation.Reads` lists what can stand at the head of a list, and every fact about single
operations goes by its cases.
-/
import CPreprocessor.Macro.Substitution

namespace CPreprocessor

namespace Operation

variable {p : Parameters}

/-- Parentheses that are closed, with their content and what follows them. -/
theorem exists_close_of_splitClose? {depth : Nat} {tokens content after : List Token}
    (found : splitClose? depth tokens = some (content, after)) :
    ∃ close, close.isClose = true ∧ tokens = content ++ close :: after := by
  induction tokens generalizing depth content with
  | nil => cases found
  | cons token rest ih =>
    rw [splitClose?] at found
    split at found
    · rename_i closes
      cases found
      exact ⟨token, (Bool.and_eq_true _ _ ▸ closes).1, rfl⟩
    · obtain ⟨⟨inner, later⟩, split, same⟩ := Option.map_eq_some_iff.mp found
      cases same
      obtain ⟨close, closes, rfl⟩ := ih split
      exact ⟨close, closes, rfl⟩

theorem exists_of_parenthesized? {tokens content after : List Token}
    (found : parenthesized? tokens = some (content, after)) :
    ∃ opening close, opening.isOpen = true ∧ close.isClose = true
      ∧ tokens = opening :: content ++ close :: after := by
  cases tokens with
  | nil => cases found
  | cons opening rest =>
    rw [parenthesized?] at found
    split at found
    · rename_i opens
      obtain ⟨close, closes, rfl⟩ := exists_close_of_splitClose? found
      exact ⟨opening, close, opens, closes, rfl⟩
    · cases found

/-- What can stand at the head of a replacement list: its first token, the tokens after it, the operation
that they ask for and what follows the operation. -/
inductive Reads (p : Parameters) : Token → List Token → Operation → List Token → Prop
  | string {hash operand : Token} {position : Nat} {after : List Token} :
    hash.isHash = true → p.indexOf? operand = some position →
      Reads p hash (operand :: after) (.stringize hash position) after
  | comma {comma paste next : Token} {after : List Token} :
    comma.isPunctuator [','] = true → paste.isPaste = true →
      Reads p comma (paste :: next :: after) (.comma comma p.named.length) (next :: after)
  | pasteArgument {paste operand : Token} {position : Nat} {after : List Token} :
    paste.isPaste = true → p.indexOf? operand = some position →
      Reads p paste (operand :: after) (.pasteArgument paste position) after
  | pasteOptional {paste token : Token} {rest content after : List Token} :
    paste.isPaste = true → p.isOptional token = true → parenthesized? rest = some (content, after) →
      Reads p paste (token :: rest) (.pasteOptional paste content) after
  | pasteToken {paste operand : Token} {after : List Token} :
    paste.isPaste = true → Reads p paste (operand :: after) (.pasteToken paste operand) after
  | leftOperand {token : Token} {position : Nat} {after : List Token} :
    p.indexOf? token = some position → Reads p token after (.leftOperand token position) after
  | optional {token : Token} {rest content after : List Token} :
    p.isOptional token = true → parenthesized? rest = some (content, after) →
      Reads p token rest (.optional token content (startsWithPaste after)) after
  | argument {token : Token} {position : Nat} {after : List Token} :
    p.indexOf? token = some position → Reads p token after (.argument token position) after
  | copy {token : Token} {after : List Token} :
    (token.isHash = true → ∀ next ∈ after.head?, p.indexOf? next = none) →
      Reads p token after (.copy token) after

theorem reads_readPaste {paste : Token} (isPaste : paste.isPaste = true) (operand : Token)
    (rest : List Token) :
    Reads p paste (operand :: rest) (readPaste p paste operand rest).1
      (readPaste p paste operand rest).2 := by
  unfold readPaste
  cases found : p.indexOf? operand with
  | some position => exact .pasteArgument isPaste found
  | none =>
    simp only []
    split
    · rename_i content after closes
      split at closes
      · rename_i isOptional
        exact .pasteOptional isPaste isOptional closes
      · cases closes
    · exact .pasteToken isPaste

theorem reads_readOperand {token : Token} {rest : List Token}
    (noString : token.isHash = true → ∀ next ∈ rest.head?, p.indexOf? next = none) :
    Reads p token rest (readOperand p token rest).1 (readOperand p token rest).2 := by
  unfold readOperand
  simp only []
  split
  · rename_i position found
    split at found
    · exact .leftOperand found
    · cases found
  · split
    · rename_i isOptional
      split
      · rename_i content after closes
        exact .optional isOptional closes
      · exact .copy noString
    · split
      · rename_i position found
        exact .argument found
      · exact .copy noString

/-- Every head of a list is one of these. -/
theorem reads_read (p : Parameters) (token : Token) (rest : List Token) :
    Reads p token rest (read p token rest).1 (read p token rest).2 := by
  unfold read
  cases string : readString? p token rest with
  | some found =>
    cases rest with
    | nil => cases string
    | cons next after =>
      rw [readString?] at string
      split at string
      · rename_i isHash
        obtain ⟨position, index, rfl⟩ := Option.map_eq_some_iff.mp string
        exact .string isHash index
      · cases string
  | none =>
    have noString : token.isHash = true → ∀ next ∈ rest.head?, p.indexOf? next = none := by
      intro isHash next isNext
      obtain ⟨after, rfl⟩ := List.head?_eq_some_iff.mp isNext
      simpa [readString?, isHash] using string
    cases comma : readComma? p token rest with
    | some found =>
      rcases rest with _ | ⟨paste, _ | ⟨next, after⟩⟩
      · cases comma
      · cases comma
      · rw [readComma?] at comma
        split at comma
        · rename_i isComma
          simp only [Bool.and_eq_true] at isComma
          cases comma
          exact .comma isComma.1.1 isComma.1.2
        · cases comma
    | none =>
      cases rest with
      | nil => exact reads_readOperand noString
      | cons operand after =>
        simp only []
        split
        · rename_i isPaste
          exact reads_readPaste isPaste operand after
        · exact reads_readOperand noString

/-- The tokens that an operation carries over from the replacement list. -/
def own : Operation → List Token
  | copy token => [token]
  | comma token _ => [token]
  | pasteToken _ token => [token]
  | _ => []

/-- The operation pastes tokens to what stands before them. -/
def pastes : Operation → Bool
  | pasteArgument _ _ | pasteOptional _ _ | pasteToken _ _ => true
  | _ => false

/-- The content of parentheses at the head of a list, and what follows them, are parts of the list. -/
theorem parts_of_parenthesized? {tokens content after : List Token}
    (found : parenthesized? tokens = some (content, after)) :
    content <:+: tokens ∧ after <:+ tokens := by
  obtain ⟨opening, close, -, -, rfl⟩ := exists_of_parenthesized? found
  exact ⟨⟨[opening], close :: after, by simp⟩, ⟨opening :: content ++ [close], by simp⟩⟩

/-- What an operation carries along and what follows it are parts of the list. -/
theorem Reads.parts {token : Token} {rest after : List Token} {operation : Operation}
    (reads : Reads p token rest operation after) :
    operation.content <:+: rest ∧ after <:+ rest := by
  have none (tokens : List Token) : [] <:+: tokens := (List.nil_prefix).isInfix
  cases reads with
  | string => exact ⟨none _, List.suffix_cons _ _⟩
  | comma => exact ⟨none _, List.suffix_cons _ _⟩
  | pasteArgument => exact ⟨none _, List.suffix_cons _ _⟩
  | pasteOptional _ _ closes =>
    obtain ⟨inside, behind⟩ := parts_of_parenthesized? closes
    exact ⟨inside.trans (List.suffix_cons _ _).isInfix, behind.trans (List.suffix_cons _ _)⟩
  | pasteToken => exact ⟨none _, List.suffix_cons _ _⟩
  | leftOperand => exact ⟨none _, List.suffix_refl _⟩
  | optional _ closes => exact parts_of_parenthesized? closes
  | argument => exact ⟨none _, List.suffix_refl _⟩
  | copy => exact ⟨none _, List.suffix_refl _⟩

theorem Reads.own_subset {token : Token} {rest after : List Token} {operation : Operation}
    (reads : Reads p token rest operation after) : operation.own ⊆ token :: rest := by
  cases reads <;> simp [own]

/-- All operations of a replacement list, those of its optional parts included. -/
def all (p : Parameters) : List Token → List Operation
  | [] => []
  | token :: rest =>
    let head := read p token rest
    head.1 :: (all p head.1.content ++ all p head.2)
  termination_by tokens => tokens.length
  decreasing_by
    · exact Nat.lt_succ_of_le (length_read _ token rest).2
    · exact Nat.lt_succ_of_le (length_read _ token rest).1

/-- Every operation is asked for by a part of the replacement list. -/
theorem exists_reads_of_mem_all {body : List Token} {operation : Operation}
    (member : operation ∈ all p body) :
    ∃ token rest after, token :: rest ⊆ body ∧ Reads p token rest operation after := by
  fun_induction all p body with
  | case1 => cases member
  | case2 token rest head inside behind =>
    have reads := reads_read p token rest
    have later {part : List Token} (isPart : part <:+: rest) : part ⊆ token :: rest :=
      (isPart.trans (List.suffix_cons token rest).isInfix).subset
    obtain rfl | member := List.mem_cons.mp member
    · exact ⟨token, rest, _, List.Subset.refl _, reads⟩
    · obtain member | member := List.mem_append.mp member
      · obtain ⟨first, others, after, isPart, asks⟩ := inside member
        exact ⟨first, others, after, List.Subset.trans isPart (later reads.parts.1), asks⟩
      · obtain ⟨first, others, after, isPart, asks⟩ := behind member
        exact ⟨first, others, after, List.Subset.trans isPart (later reads.parts.2.isInfix), asks⟩

theorem own_subset_of_mem_all {body : List Token} {operation : Operation}
    (member : operation ∈ all p body) : operation.own ⊆ body := by
  obtain ⟨token, rest, after, isPart, reads⟩ := exists_reads_of_mem_all member
  exact List.Subset.trans reads.own_subset isPart

/-- Where tokens are pasted, there is a `##`. -/
theorem exists_isPaste_of_mem_all {body : List Token} {operation : Operation}
    (member : operation ∈ all p body) (pastes : operation.pastes = true) :
    ∃ token ∈ body, token.isPaste = true := by
  obtain ⟨token, rest, after, isPart, reads⟩ := exists_reads_of_mem_all member
  refine ⟨token, isPart List.mem_cons_self, ?_⟩
  cases reads <;> first | assumption | cases pastes

end Operation

/-! ## A property of all tokens -/

/-- What holds of the tokens of an argument and of its expansion. -/
structure Argument.All (P : Token → Prop) (argument : Argument) : Prop where
  tokens : ∀ token ∈ argument.tokens, P token
  expand : ∀ state, ∀ token ∈ (argument.expand state).1, P token

namespace Substitution

/-- A property that says nothing about the white space before a token, and that the tokens made by `#`
have, and, if anything is pasted, those made by `##` of tokens that have it. -/
structure Kept (language : Language) (pastes : Prop) (P : Token → Prop) : Prop where
  spaced : ∀ {token : Token} (afterSpace : Bool), P token → P (token.withSpace afterSpace)
  pasted : ∀ {left right token : Token}, pastes → P left → P right →
    pasted? language left right = some token → P token
  string : ∀ (hash : Token) (argument : List Token), P (stringize hash argument)

/-- All tokens of a substitution have a property. -/
structure All (P : Token → Prop) (s : Substitution) : Prop where
  produced : ∀ token ∈ s.produced, P token
  expanded : ∀ entry ∈ s.expanded, ∀ token ∈ entry.2, P token

variable {language : Language} {pastes : Prop} {P : Token → Prop} {args : List Argument}
  {s : Substitution}

namespace Kept

variable (kept : Kept language pastes P)
include kept

theorem spaced_all {tokens : List Token} (all : ∀ token ∈ tokens, P token) (afterSpace : Bool) :
    ∀ token ∈ Substitution.spaced afterSpace tokens, P token := by
  cases tokens with
  | nil => exact all
  | cons token rest =>
    obtain ⟨head, tail⟩ := List.forall_mem_cons.mp all
    exact List.forall_mem_cons.mpr ⟨kept.spaced afterSpace head, tail⟩

theorem paste (allowed : pastes) {left right : Token} (leftHas : P left) (rightHas : P right)
    (state : Expansion.State) :
    ∀ token ∈ (paste language left right state).1, P token := by
  unfold Substitution.paste
  split
  · rename_i token made
    simpa using kept.pasted allowed leftHas rightHas made
  · simpa using ⟨leftHas, rightHas⟩

end Kept

namespace All

theorem result (all : s.All P) : ∀ token ∈ s.result, P token := by
  simpa [Substitution.result] using all.produced

theorem emit (all : s.All P) {tokens : List Token} (more : ∀ token ∈ tokens, P token) :
    (s.emit tokens).All P where
  produced := by
    simp only [Substitution.emit, List.forall_mem_append, List.mem_reverse]
    exact ⟨more, all.produced⟩
  expanded := all.expanded

theorem pasteOn (all : s.All P) (kept : Kept language pastes P) (allowed : pastes) (hash : Token)
    {operands : List Token} (more : ∀ token ∈ operands, P token) :
    (pasteOn language s hash operands).All P := by
  cases operands with
  | nil => exact all
  | cons right rest =>
    obtain ⟨head, tail⟩ := List.forall_mem_cons.mp more
    simp only [Substitution.pasteOn]
    split
    · exact all.emit (kept.spaced_all more _)
    · exact all.emit (kept.spaced_all more _)
    · rename_i left earlier _ produced
      have before : ∀ token ∈ left :: earlier, P token := produced ▸ all.produced
      obtain ⟨leftHas, earlierHave⟩ := List.forall_mem_cons.mp before
      refine ⟨?_, all.expanded⟩
      simp only [List.forall_mem_append, List.mem_reverse]
      exact ⟨⟨tail, kept.paste allowed leftHas head s.state⟩, earlierHave⟩

section Arguments

variable (argsAll : ∀ argument ∈ args, argument.All P)
include argsAll

theorem written (position : Nat) : ∀ token ∈ written args position, P token := by
  unfold Substitution.written
  cases found : args[position]? with
  | none => simp
  | some argument => exact (argsAll argument (List.mem_of_getElem? found)).tokens

theorem expandArgument (all : s.All P) (position : Nat) :
    (∀ token ∈ (expandArgument args s position).1, P token)
      ∧ (expandArgument args s position).2.All P := by
  unfold Substitution.expandArgument
  split
  · rename_i tokens found
    obtain ⟨before, after, known, -⟩ := List.lookup_eq_some_iff.mp found
    exact ⟨all.expanded (position, tokens) (by simp [known]), all⟩
  · split
    · exact ⟨by simp, all⟩
    · rename_i argument found
      have given := (argsAll argument (List.mem_of_getElem? found)).expand s.state
      exact ⟨given, all.produced, List.forall_mem_cons.mpr ⟨given, all.expanded⟩⟩

variable (kept : Kept language pastes P)
include kept

theorem apply (all : s.All P) {content : List Token} (inner : ∀ token ∈ content, P token)
    {operation : Operation} (own : ∀ token ∈ operation.own, P token)
    (allowed : operation.pastes = true → pastes) :
    (s.apply language args content operation).All P := by
  cases operation with
  | copy token => exact all.emit own
  | argument token position =>
    obtain ⟨given, after⟩ := all.expandArgument argsAll position
    exact after.emit (kept.spaced_all given _)
  | leftOperand token position =>
    simp only [Substitution.apply]
    split
    · exact ⟨all.produced, all.expanded⟩
    · exact all.emit (kept.spaced_all (written argsAll position) _)
  | stringize hash position => exact all.emit (by simpa using kept.string hash _)
  | comma token position =>
    refine all.emit ?_
    split
    · simp
    · exact own
  | pasteArgument paste position => exact all.pasteOn kept (allowed rfl) paste (written argsAll position)
  | pasteOptional paste _ => exact all.pasteOn kept (allowed rfl) paste inner
  | pasteToken paste token => exact all.pasteOn kept (allowed rfl) paste own
  | optional token _ beforePaste =>
    simp only [Substitution.apply]
    split
    · exact ⟨all.produced, all.expanded⟩
    · exact all.emit (kept.spaced_all inner _)

/-- What all the tokens have that a substitution takes from the arguments and from the replacement list,
all its tokens have. -/
theorem run (p : Parameters) {body : List Token}
    (own : ∀ operation ∈ Operation.all p body, ∀ token ∈ operation.own, P token)
    (allowed : ∀ operation ∈ Operation.all p body, operation.pastes = true → pastes) (all : s.All P) :
    (run language p args body s).All P := by
  fun_induction Substitution.run language p args body s with
  | case1 s => exact all
  | case2 token rest s head content s' inner _ outer =>
    rw [Operation.all] at own allowed
    obtain ⟨here, later⟩ := List.forall_mem_cons.mp own
    obtain ⟨inside, behind⟩ := List.forall_mem_append.mp later
    obtain ⟨allowedHere, allowedLater⟩ := List.forall_mem_cons.mp allowed
    obtain ⟨allowedInside, allowedBehind⟩ := List.forall_mem_append.mp allowedLater
    have start : s.inner.All P := ⟨by simp [Substitution.inner], all.expanded⟩
    have contentAll : content.All P := by
      simp only [content]
      split
      · exact inner inside allowedInside start
      · exact start
    have ready : s'.All P := ⟨all.produced, contentAll.expanded⟩
    exact outer behind allowedBehind (ready.apply argsAll kept contentAll.result here allowedHere)

end Arguments

end All

end Substitution

end CPreprocessor
