/-
# The operator `#`

A function-like macro is accepted only if every `#` of its replacement list stands before a
parameter or before `__VA_OPT__` (`ReplacementList.HasOperands`). Substitution makes strings
of parameters only, and to it a `#` after `##` is an operand like any other token: such a `#`
is kept as it is, and so is one before `__VA_OPT__` (`Operation.IsStray`). Every other `#`
and its operand are replaced by one string, in an optional part as well (`run_hash`), and no
other `#` of the list is left.

The string stands where the `#` stood because substitution looks ahead only to find `##`,
an operand, or the end of an optional part, and none of these is found across a `#` that
does not stand in an optional part that began before it (`run_append`).
-/
import CPreprocessor.Proofs.Expansion.Chains
import CPreprocessor.Proofs.Expansion.Origins

namespace CPreprocessor

variable {p : Parameters}

theorem Parameters.indexOf?_of_not_isName {token : Token} (noName : token.isName = false) :
    p.indexOf? token = none := by
  simp [indexOf?, noName]

theorem Parameters.isOptional_of_not_isName {token : Token} (noName : token.isName = false) :
    p.isOptional token = false := by
  simp [isOptional, Token.isNamed, noName]

/-! ## What the check of a definition asks for -/

namespace ReplacementList

/-- Every `#` stands before a parameter or before `__VA_OPT__`. -/
def HasOperands (p : Parameters) (body : List Token) : Prop :=
  ∀ before hash after, body = before ++ hash :: after → hash.isHash = true →
    ∃ operand rest, after = operand :: rest
      ∧ ((∃ position, p.indexOf? operand = some position) ∨ p.isOptional operand = true)

theorem hasOperands_of_badHash? {body : List Token} (accepted : badHash? p body = none) :
    HasOperands p body := by
  intro before hash after split isHash
  induction before generalizing body with
  | nil =>
    subst split
    cases after with
    | nil => simp [badHash?, isHash] at accepted
    | cons operand rest =>
      refine ⟨operand, rest, rfl, ?_⟩
      cases index : p.indexOf? operand with
      | some position => exact .inl ⟨position, rfl⟩
      | none =>
        right
        by_contra notOptional
        rw [Bool.not_eq_true] at notOptional
        simp [badHash?, isHash, index, notOptional] at accepted
  | cons token before ih =>
    subst split
    rw [List.cons_append, badHash?] at accepted
    split at accepted
    · cases accepted
    · exact ih accepted rfl

namespace HasOperands

theorem suffix (before : List Token) {after : List Token} (operands : HasOperands p (before ++ after)) :
    HasOperands p after := by
  intro earlier hash rest split isHash
  exact operands (before ++ earlier) hash rest (by rw [split, List.append_assoc]) isHash

/-- The operand of a `#` in parentheses stands in the parentheses as well. -/
theorem parenthesized (before : List Token) {content after : List Token} {close : Token}
    (operands : HasOperands p (before ++ content ++ close :: after)) (closes : close.isClose = true) :
    HasOperands p content := by
  intro earlier hash rest split isHash
  obtain ⟨operand, later, follows, isOperand⟩ :=
    operands (before ++ earlier) hash (rest ++ close :: after) (by simp [split]) isHash
  cases rest with
  | cons next rest =>
    obtain ⟨rfl, -⟩ := List.cons.inj follows
    exact ⟨next, rest, rfl, isOperand⟩
  | nil =>
    obtain ⟨rfl, -⟩ := List.cons.inj follows
    have noName := Token.isName_of_isPunctuator closes
    obtain ⟨position, index⟩ | isOptional := isOperand
    · simp [Parameters.indexOf?_of_not_isName noName] at index
    · simp [Parameters.isOptional_of_not_isName noName] at isOptional

end HasOperands

end ReplacementList

namespace Operation

open ReplacementList (HasOperands)

theorem Reads.hasOperands {token : Token} {rest after : List Token} {operation : Operation}
    (reads : Reads p token rest operation after) (operands : HasOperands p (token :: rest)) :
    HasOperands p operation.content ∧ HasOperands p after := by
  have none : HasOperands p [] := fun before hash after split => by simp at split
  have behind : HasOperands p after := by
    obtain ⟨before, split⟩ := reads.parts.2
    exact HasOperands.suffix (token :: before) (by simpa [split] using operands)
  refine ⟨?_, behind⟩
  cases reads with
  | pasteOptional _ _ closes =>
    obtain ⟨opening, close, -, isClose, rfl⟩ := exists_of_parenthesized? closes
    exact HasOperands.parenthesized [token, _, opening] (by simpa [content] using operands) isClose
  | optional _ closes =>
    obtain ⟨opening, close, -, isClose, rfl⟩ := exists_of_parenthesized? closes
    exact HasOperands.parenthesized [token, opening] (by simpa [content] using operands) isClose
  | string => exact none
  | comma => exact none
  | pasteArgument => exact none
  | pasteToken => exact none
  | leftOperand => exact none
  | argument => exact none
  | copy => exact none

/-- A `#` that makes no string: it stands directly after `##` or directly before `__VA_OPT__`. -/
def IsStray (p : Parameters) (body : List Token) (hash : Token) : Prop :=
  (∃ paste, paste.isPaste = true ∧ [paste, hash] <:+: body)
    ∨ ∃ operand, p.isOptional operand = true ∧ [hash, operand] <:+: body

theorem IsStray.of_infix {part body : List Token} {hash : Token} (stray : IsStray p part hash)
    (isPart : part <:+: body) : IsStray p body hash :=
  stray.imp (fun ⟨paste, isPaste, pair⟩ => ⟨paste, isPaste, pair.trans isPart⟩)
    (fun ⟨operand, isOptional, pair⟩ => ⟨operand, isOptional, pair.trans isPart⟩)

theorem Reads.isStray {token hash : Token} {rest after : List Token} {operation : Operation}
    (reads : Reads p token rest operation after) (operands : HasOperands p (token :: rest))
    (isHash : hash.isHash = true) (own : hash ∈ operation.own) : IsStray p (token :: rest) hash := by
  cases reads with
  | copy noString =>
    obtain rfl := List.mem_singleton.mp own
    obtain ⟨operand, later, rfl, ⟨position, index⟩ | isOptional⟩ := operands [] hash rest rfl isHash
    · simp [noString isHash operand rfl] at index
    · exact .inr ⟨operand, isOptional, [], later, rfl⟩
  | comma isComma =>
    obtain rfl := List.mem_singleton.mp own
    simp [Token.isHash, Token.isPunctuator_of_isPunctuator isComma] at isHash
  | pasteToken isPaste =>
    obtain rfl := List.mem_singleton.mp own
    exact .inl ⟨token, isPaste, [], _, rfl⟩
  | string => cases own
  | pasteArgument => cases own
  | pasteOptional => cases own
  | leftOperand => cases own
  | optional => cases own
  | argument => cases own

/-- A `#` that an operation carries over makes no string. -/
theorem isStray_of_mem_own {body : List Token} (operands : HasOperands p body) {operation : Operation}
    (member : operation ∈ all p body) {hash : Token} (isHash : hash.isHash = true)
    (own : hash ∈ operation.own) : IsStray p body hash := by
  fun_induction all p body with
  | case1 => cases member
  | case2 token rest head inside behind =>
    have reads := reads_read p token rest
    obtain ⟨content, later⟩ := reads.hasOperands operands
    have widen {part : List Token} (isPart : part <:+: rest) (stray : IsStray p part hash) :
        IsStray p (token :: rest) hash :=
      stray.of_infix (isPart.trans (List.suffix_cons token rest).isInfix)
    obtain rfl | member := List.mem_cons.mp member
    · exact reads.isStray operands isHash own
    · obtain member | member := List.mem_append.mp member
      · exact widen reads.parts.1 (inside content member)
      · exact widen reads.parts.2.isInfix (behind later member)

/-! ## Reading up to a `#` -/

/-- No optional part that begins in `before` reaches into `rest`. -/
def Outside (p : Parameters) (before rest : List Token) : Prop :=
  ∀ token inner, token :: inner <:+ before → p.isOptional token = true →
    parenthesized? (inner ++ rest)
      = (parenthesized? inner).map fun (content, after) => (content, after ++ rest)

theorem Outside.suffix {before part rest : List Token} (outside : Outside p before rest)
    (isPart : part <:+ before) : Outside p part rest :=
  fun token inner isSuffix => outside token inner (isSuffix.trans isPart)

section Append

variable {hash token : Token} {before after : List Token} (isHash : hash.isHash = true)
include isHash

theorem startsWithPaste_append (before after : List Token) :
    startsWithPaste (before ++ hash :: after) = startsWithPaste before := by
  cases before with
  | nil => exact Token.isPaste_of_isHash isHash
  | cons token before => rfl

theorem readString?_append (token : Token) (before after : List Token) :
    readString? p token (before ++ hash :: after)
      = (readString? p token before).map fun (operation, rest) => (operation, rest ++ hash :: after) := by
  cases before with
  | nil => simp [readString?, Parameters.indexOf?_of_not_isName (Token.isName_of_isHash isHash)]
  | cons next before =>
    simp only [readString?, List.cons_append]
    split
    · cases p.indexOf? next <;> rfl
    · rfl

theorem readComma?_append (token : Token) (before after : List Token) :
    readComma? p token (before ++ hash :: after)
      = (readComma? p token before).map fun (operation, rest) => (operation, rest ++ hash :: after) := by
  rcases before with _ | ⟨paste, _ | ⟨next, before⟩⟩
  · cases after <;> simp [readComma?, Token.isPaste_of_isHash isHash]
  · simp [readComma?, Parameters.isVariadicAt,
      Parameters.indexOf?_of_not_isName (Token.isName_of_isHash isHash)]
  · simp only [readComma?, List.cons_append]
    split <;> rfl

omit isHash in
theorem readPaste_append (paste operand : Token)
    (outside : Outside p (operand :: before) (hash :: after)) :
    readPaste p paste operand (before ++ hash :: after)
      = ((readPaste p paste operand before).1,
        (readPaste p paste operand before).2 ++ hash :: after) := by
  unfold readPaste
  cases index : p.indexOf? operand with
  | some position => rfl
  | none =>
    cases optional : p.isOptional operand with
    | false => rfl
    | true =>
      rw [if_pos rfl, if_pos rfl, outside operand before (List.suffix_refl _) optional]
      cases parenthesized? before <;> rfl

theorem readOperand_append (outside : Outside p (token :: before) (hash :: after)) :
    readOperand p token (before ++ hash :: after)
      = ((readOperand p token before).1, (readOperand p token before).2 ++ hash :: after) := by
  unfold readOperand
  simp only [startsWithPaste_append isHash]
  cases if startsWithPaste before = true then p.indexOf? token else none with
  | some position => rfl
  | none =>
    cases optional : p.isOptional token with
    | false => cases p.indexOf? token <;> rfl
    | true =>
      rw [if_pos rfl, if_pos rfl, outside token before (List.suffix_refl _) optional]
      cases parenthesized? before with
      | none => rfl
      | some parts => simp [startsWithPaste_append isHash]

/-- The head of a list is read without regard to a `#` that comes later. -/
theorem read_append (outside : Outside p (token :: before) (hash :: after))
    (last : ∀ last ∈ (token :: before).getLast?, last.isPaste = false) :
    read p token (before ++ hash :: after)
      = ((read p token before).1, (read p token before).2 ++ hash :: after) := by
  unfold read
  rw [readString?_append isHash, readComma?_append isHash]
  cases readString? p token before with
  | some found => rfl
  | none =>
    cases readComma? p token before with
    | some found => rfl
    | none =>
      cases before with
      | nil =>
        have plain : token.isPaste = false := last token rfl
        simpa [plain] using readOperand_append isHash outside
      | cons operand before =>
        simp only [Option.map_none, List.cons_append]
        cases token.isPaste with
        | true =>
          exact readPaste_append token operand (outside.suffix (List.suffix_cons _ _))
        | false => exact readOperand_append isHash outside

/-- Parentheses are closed before a `#`, or after it, or not at all. -/
theorem splitClose?_append (depth : Nat) (before after : List Token) :
    splitClose? depth (before ++ hash :: after)
        = (splitClose? depth before).map (fun (content, rest) => (content, rest ++ hash :: after))
      ∨ ∃ content rest,
          splitClose? depth (before ++ hash :: after) = some (before ++ hash :: content, rest) := by
  induction before generalizing depth with
  | nil =>
    have passes : splitClose? depth (hash :: after)
        = (splitClose? depth after).map fun (content, rest) => (hash :: content, rest) := by
      rw [splitClose?, Token.isClose_of_isHash isHash, Token.isOpen_of_isHash isHash]
      rfl
    rw [List.nil_append, passes]
    cases splitClose? depth after with
    | none => exact .inl rfl
    | some parts => exact .inr ⟨parts.1, parts.2, rfl⟩
  | cons token before ih =>
    rw [List.cons_append, splitClose?, splitClose?]
    split
    · exact .inl rfl
    · simp only []
      obtain closed | ⟨content, rest, open_⟩ :=
        ih (if token.isOpen then depth + 1 else if token.isClose then depth - 1 else depth)
      · left
        rw [closed, Option.map_map, Option.map_map]
        rfl
      · exact .inr ⟨content, rest, by rw [open_]; rfl⟩

end Append

/-- The replacement list itself and the contents of its optional parts, with what stands before and after
them. -/
inductive Part (p : Parameters) (body : List Token) : List Token → List Token → List Token → Prop
  | whole : Part p body [] body []
  | content {before earlier content later after : List Token} {token opening close : Token} :
    Part p body before (earlier ++ token :: opening :: (content ++ close :: later)) after →
      p.isOptional token = true → close.isClose = true →
      parenthesized? (opening :: (content ++ close :: later)) = some (content, later) →
      Part p body (before ++ earlier ++ [token, opening]) content (close :: later ++ after)

theorem Part.hasOperands {body before list after : List Token} (part : Part p body before list after)
    (operands : HasOperands p body) : HasOperands p list := by
  induction part with
  | whole => exact operands
  | @content before earlier content later after token opening close _ _ closes _ ih =>
    exact HasOperands.parenthesized (earlier ++ [token, opening])
      (by simpa using ih) closes

/-- Every `#` stands in a part of the list in which it is outside of every optional part that begins
before it. -/
theorem Part.exists_outside {body before list after earlier rest : List Token} {hash : Token}
    (isHash : hash.isHash = true) (part : Part p body before list after)
    (split : list = earlier ++ hash :: rest) :
    ∃ before' earlier' rest' after', Part p body before' (earlier' ++ hash :: rest') after'
      ∧ before' ++ earlier' = before ++ earlier ∧ rest' ++ after' = rest ++ after
      ∧ earlier' <:+ earlier ∧ Outside p earlier' (hash :: rest') := by
  subst split
  by_cases outside : Outside p earlier (hash :: rest)
  · exact ⟨before, earlier, rest, after, part, rfl, rfl, List.suffix_refl _, outside⟩
  · simp only [Outside, not_forall] at outside
    obtain ⟨token, inner, ⟨others, rfl⟩, isOptional, reaches⟩ := outside
    cases inner with
    | nil =>
      exact absurd (by simp [parenthesized?, Token.isOpen_of_isHash isHash]) reaches
    | cons opening inner =>
      have opens : opening.isOpen = true := by
        by_contra notOpen
        exact reaches (by simp [parenthesized?, notOpen])
      obtain closed | ⟨content, later, found⟩ := splitClose?_append isHash 0 inner rest
      · exact absurd (by simpa [parenthesized?, opens] using closed) reaches
      · obtain ⟨close, closes, parts⟩ := exists_close_of_splitClose? found
        obtain rfl : rest = content ++ close :: later := by simpa using parts
        have around : parenthesized? (opening :: (inner ++ hash :: content ++ close :: later))
            = some (inner ++ hash :: content, later) := by
          rw [parenthesized?, if_pos opens, ← found]
          simp
        have inside := Part.content (by simpa using part) isOptional closes around
        obtain ⟨before', earlier', rest', after', part', front, back, isSuffix, outside⟩ :=
          exists_outside isHash inside rfl
        refine ⟨before', earlier', rest', after', part', ?_, ?_, ?_, outside⟩
        · simp [front]
        · simp [back]
        · exact isSuffix.trans ⟨others ++ [token, opening], by simp⟩
  termination_by earlier.length

end Operation

namespace Substitution

/-- What stands before a `#` is substituted as if nothing came after it. -/
theorem run_append (language : Language) (args : List Argument) {before after : List Token}
    {hash : Token} (isHash : hash.isHash = true)
    (outside : Operation.Outside p before (hash :: after))
    (last : ∀ last ∈ before.getLast?, last.isPaste = false) (s : Substitution) :
    run language p args (before ++ hash :: after) s
      = run language p args (hash :: after) (run language p args before s) := by
  fun_induction run language p args before s with
  | case1 s => rfl
  | case2 token rest s head content s' _ _ behind =>
    have isPart := (Operation.reads_read p token rest).parts.2
    have isSuffix := isPart.trans (List.suffix_cons token rest)
    rw [List.cons_append, run, Operation.read_append isHash outside last]
    refine behind (outside.suffix isSuffix) fun final isLast => last final ?_
    obtain ⟨earlier, split⟩ := isSuffix
    rw [← split, List.getLast?_append, Option.mem_def.mp isLast]
    rfl

/-- `hash` and `operand`, which stand between `before` and `rest` in the replacement list, are replaced by
one string. In the part in which they stand, the substitution of what comes before them is followed by
the string and this by the substitution of what comes after them. -/
def MakesString (language : Language) (p : Parameters) (args : List Argument)
    (body before : List Token) (hash operand : Token) (rest : List Token) (position : Nat) : Prop :=
  ∃ outer earlier later after,
    Operation.Part p body outer (earlier ++ hash :: operand :: later) after
      ∧ outer ++ earlier = before ∧ later ++ after = rest
      ∧ ∀ s, run language p args (earlier ++ hash :: operand :: later) s
          = run language p args later
            ((run language p args earlier s).emit [stringize hash (written args position)])

theorem makesString (language : Language) (args : List Argument) {body before rest : List Token}
    {hash operand : Token} {position : Nat}
    (operands : ReplacementList.HasOperands p body) (split : body = before ++ hash :: operand :: rest)
    (isHash : hash.isHash = true) (index : p.indexOf? operand = some position)
    (last : ∀ last ∈ before.getLast?, last.isPaste = false) :
    MakesString language p args body before hash operand rest position := by
  obtain ⟨outer, earlier, follows, after, part, front, back, ⟨others, isSuffix⟩, outside⟩ :=
    Operation.Part.exists_outside isHash .whole split
  obtain ⟨next, later, rfl, -⟩ := part.hasOperands operands earlier hash follows rfl isHash
  obtain ⟨rfl, behind⟩ :=
    List.cons.inj (by simpa using back : next :: (later ++ after) = operand :: rest)
  refine ⟨outer, earlier, later, after, part, front, behind, fun s => ?_⟩
  have lastEarlier : ∀ last ∈ earlier.getLast?, last.isPaste = false := fun final isLast =>
    last final (by rw [← isSuffix, List.getLast?_append, Option.mem_def.mp isLast]; rfl)
  have reads : Operation.read p hash (next :: later) = (.stringize hash position, later) := by
    simp [Operation.read, Operation.readString?, isHash, index]
  rw [run_append language args isHash outside lastEarlier, run_cons language args reads rfl]
  rfl

/-- Up to the white space before it, the token is one of an argument or of its expansion. -/
def IsArgument (args : List Argument) (token : Token) : Prop :=
  ∃ argument ∈ args, ∃ source,
    (source ∈ argument.tokens ∨ ∃ state, source ∈ (argument.expand state).1)
      ∧ token.unspaced = source.unspaced

/-- Up to the white space before it, the token is made of two tokens by pasting. -/
def IsPasted (language : Language) (token : Token) : Prop :=
  ∃ left right made, pasted? language left right = some made ∧ token.unspaced = made.unspaced

/-- A `#` in the result of a substitution comes from an argument or from pasting, or it is one that makes
no string. -/
theorem origin_of_isHash (language : Language) (args : List Argument) {body : List Token}
    (operands : ReplacementList.HasOperands p body) (state : Expansion.State) :
    ∀ token ∈ (run language p args body { state }).result, token.isHash = true →
      IsArgument args token ∨ IsPasted language token
        ∨ ∃ hash, Operation.IsStray p body hash ∧ token.unspaced = hash.unspaced := by
  have kept : Kept language True fun token => token.isHash = true →
      IsArgument args token ∨ IsPasted language token
        ∨ ∃ hash, Operation.IsStray p body hash ∧ token.unspaced = hash.unspaced :=
    { spaced := fun _ origin => origin
      pasted := fun _ _ _ made _ => .inr (.inl ⟨_, _, _, made, rfl⟩)
      string := fun _ _ isHash => by cases isHash }
  refine All.result (All.run ?_ kept p ?_ (fun _ _ _ => trivial) ⟨by simp, by simp⟩)
  · exact fun argument member =>
      ⟨fun token isToken _ => .inl ⟨argument, member, token, .inl isToken, rfl⟩,
        fun state token isToken _ => .inl ⟨argument, member, token, .inr ⟨state, isToken⟩, rfl⟩⟩
  · exact fun operation member token own isHash =>
      .inr (.inr ⟨token, Operation.isStray_of_mem_own operands member isHash own, rfl⟩)

/-- In an accepted function-like macro every `#` stands directly after `##` or before `__VA_OPT__`, or it and
the parameter after it are replaced by one string. A `#` in the result of a substitution comes from an
argument, from pasting, or is one of those in the first two places. -/
theorem run_hash (language : Language) {name : Token} {tokens : List Token} {m : Macro}
    (accepted : Directive.readDefinition name tokens = .ok m) (isFunctionLike : m.isFunctionLike = true)
    (args : List Argument) :
    (∀ before hash after, m.body = before ++ hash :: after → hash.isHash = true →
        (∃ paste ∈ before.getLast?, paste.isPaste = true)
          ∨ (∃ operand ∈ after.head?, m.parameters.isOptional operand = true)
          ∨ ∃ operand rest position, after = operand :: rest
              ∧ m.parameters.indexOf? operand = some position
              ∧ MakesString language m.parameters args m.body before hash operand rest position)
      ∧ ∀ state, ∀ token ∈ (run language m.parameters args m.body { state }).result,
          token.isHash = true →
            IsArgument args token ∨ IsPasted language token
              ∨ ∃ hash, Operation.IsStray m.parameters m.body hash ∧ token.unspaced = hash.unspaced := by
  obtain ⟨-, -, noBadHash⟩ :=
    ReplacementList.facts_of_error? (Directive.error?_of_readDefinition accepted)
  have operands : ReplacementList.HasOperands m.parameters m.body :=
    ReplacementList.hasOperands_of_badHash? (noBadHash m.parameters (by simp [isFunctionLike]))
  refine ⟨fun before hash after split isHash => ?_, fun state =>
    origin_of_isHash language args operands state⟩
  by_cases pasted : ∃ paste ∈ before.getLast?, paste.isPaste = true
  · exact .inl pasted
  · have last : ∀ last ∈ before.getLast?, last.isPaste = false := by simpa using pasted
    obtain ⟨operand, rest, rfl, ⟨position, index⟩ | isOptional⟩ :=
      operands before hash after split isHash
    · exact .inr (.inr ⟨operand, rest, position, rfl, index,
        makesString language args operands split isHash index last⟩)
    · exact .inr (.inl ⟨operand, rfl, isOptional⟩)

/-- The `#` in the middle of `x ## y y #x ## x y` makes a string. -/
theorem run_hash_chained : ∃ position,
    MakesString .standard chained.parameters chainedArguments chained.body (chainedBody.take 4)
      (glued .punctuator "#") (glued .identifier "x") (chainedBody.drop 6) position := by
  obtain ⟨hashes, -⟩ := run_hash .standard readDefinition_chained rfl chainedArguments
  obtain ⟨paste, isLast, isPaste⟩ | ⟨operand, isFirst, isOptional⟩
    | ⟨operand, rest, position, same, -, makes⟩ :=
    hashes (chainedBody.take 4) (glued .punctuator "#") (chainedBody.drop 5) rfl rfl
  · cases isLast
    cases isPaste
  · cases isFirst
    cases isOptional
  · cases same
    exact ⟨position, makes⟩

end Substitution

end CPreprocessor
