/-
# Expansion and the end of the file

Expansion never gives the end of a file: what it gives comes from tokens before the end,
from replacement lists, or from pasting and making strings, and none of these ends a file
(`expandAll_inside`, `expandCall_inside`). Nor does it matter what stands after the
tokens of a list if these are ends of files (`expandAll_append_ends`), or after a call
that is closed (`Head.ofMacro_append_of_closed`): a run, which pulls no more tokens than it
needs, reads the same calls as the expansion of the whole list.
-/
import CPreprocessor.Proofs.Expansion.Properties
import CPreprocessor.Proofs.Places.Expansion

namespace CPreprocessor

/-- None of the tokens ends a file. -/
def Inside (tokens : List Token) : Prop :=
  ∀ token ∈ tokens, token.isEnd = false

namespace Inside

variable {first second : List Token}

theorem nil : Inside [] := nofun

theorem cons {token : Token} (more : token.isEnd = false) (inside : Inside first) :
    Inside (token :: first) :=
  List.forall_mem_cons.mpr ⟨more, inside⟩

theorem append (inside : Inside first) (inside' : Inside second) : Inside (first ++ second) :=
  List.forall_mem_append.mpr ⟨inside, inside'⟩

theorem of_subset (inside : Inside first) (subset : second ⊆ first) : Inside second :=
  fun token member => inside token (subset member)

end Inside

/-! ## Substitution -/

theorem exists_source_of_tokenize {text : Text} {file : FileRef} {language : Language} {tokens : List Token}
    (lexed : tokenize text (some file) language = .ok tokens) :
    ∃ source, Source.ofBytes text file.path false = .ok source
      ∧ (Lexer.ofSource source file language false).drain.1 = tokens := by
  unfold tokenize at lexed
  cases made : Source.ofBytes text file.path false with
  | error cause => simp [made, Except.map] at lexed
  | ok source =>
    simp only [Option.map_some, Option.getD_some, made, Except.map, Except.ok.injEq] at lexed
    exact ⟨source, rfl, lexed⟩

/-- Of two tokens that are all of a text, the first one does not end the file. -/
theorem isEnd_of_drain {l : Lexer} {first last : Token} (all : l.drain.1 = [first, last]) :
    first.isEnd = false := by
  rw [Lexer.drain] at all
  split at all
  rename_i token after taken
  split at all
  · simp at all
  · rename_i more
    simp only [List.cons.injEq] at all
    rw [← all.1]
    simpa using more

namespace Substitution

variable {language : Language} {s : Substitution} {args : List Argument}

theorem isEnd_pasted? {left right token : Token} (pasted : pasted? language left right = some token) :
    token.isEnd = false := by
  unfold pasted? at pasted
  simp only [] at pasted
  split at pasted
  · rename_i first last all
    split at pasted
    · cases pasted
      obtain ⟨source, -, drained⟩ := exists_source_of_tokenize all
      have more : first.isEnd = false := isEnd_of_drain drained
      exact more
    · cases pasted
  · cases pasted

/-- Neither `#` nor `##` makes an end of a file. -/
theorem kept_inside : Kept language True fun token => token.isEnd = false where
  spaced _ inside := inside
  pasted _ _ _ made := isEnd_pasted? made
  string _ _ := rfl

/-- Substitution gives no end of a file. -/
theorem inside_run (argsInside : ∀ argument ∈ args, argument.All fun token => token.isEnd = false)
    (p : Parameters) {body : List Token} (bodyInside : Inside body) (state : Expansion.State) :
    Inside (run language p args body { state }).result :=
  All.result (All.run argsInside kept_inside p
    (fun _ member => bodyInside.of_subset (Operation.own_subset_of_mem_all member))
    (fun _ _ _ => trivial) ⟨by simp, by simp⟩)

end Substitution

/-! ## Calls -/

namespace Arguments

/-- The arguments of a call have no end of a file in them. -/
theorem inside_of_read {commas : Option Nat} {depth : Nat} {tokens : List Token} {a : Arguments}
    (found : read commas depth tokens = some a) : ∀ piece ∈ a.pieces, Inside piece := by
  induction tokens generalizing commas depth a with
  | nil => cases found
  | cons token rest ih =>
    rw [read] at found
    split at found
    · cases found
    · rename_i more
      have here : token.isEnd = false := by simpa using more
      split at found
      · cases found
        simpa using Inside.nil
      · split at found
        · obtain ⟨b, read, rfl⟩ := Option.map_eq_some_iff.mp found
          exact List.forall_mem_cons.mpr ⟨.nil, ih read⟩
        · obtain ⟨b, read, rfl⟩ := Option.map_eq_some_iff.mp found
          have pieces := ih read
          intro piece member
          cases split : b.pieces with
          | nil =>
            rw [split, prepend, List.mem_singleton] at member
            exact member ▸ .cons here .nil
          | cons head tail =>
            rw [split] at member pieces
            obtain ⟨headInside, tailInside⟩ := List.forall_mem_cons.mp pieces
            obtain rfl | later := List.mem_cons.mp member
            · exact .cons here headInside
            · exact tailInside piece later

/-- What stands after a call that is closed, or after the end of the file, is no part of it. -/
theorem read_append {depth : Nat} {tokens more : List Token}
    (decided : depthAfter depth tokens = none ∨ ∀ token ∈ more.head?, token.isEnd = true)
    (commas : Option Nat) :
    read commas depth (tokens ++ more)
      = (read commas depth tokens).map fun a => { a with rest := a.rest ++ more } := by
  induction tokens generalizing depth commas with
  | nil =>
    obtain goesOn | ends := decided
    · cases goesOn
    · cases more with
      | nil => rfl
      | cons token more =>
        have isEnd : token.isEnd = true := ends token rfl
        simp only [List.nil_append, read, isEnd, if_true, Option.map_none]
  | cons token rest ih =>
    simp only [List.cons_append, read]
    split
    · rfl
    · rename_i goesOn
      split
      · rfl
      · rename_i unclosed
        -- The hypothesis for the rest depends on how deep the token leads.
        have later : depthAfter
            (if token.isOpen then depth + 1 else if token.isClose then depth - 1 else depth) rest
              = none ∨ ∀ token ∈ more.head?, token.isEnd = true := by
          refine decided.imp_left fun decided => ?_
          rw [depthAfter, if_neg goesOn] at decided
          by_cases close : token.isClose = true
          · have notOpen : token.isOpen = false := Token.isPunctuator_of_isPunctuator close ['(']
            have deeper : depth ≠ 0 := by
              rintro rfl
              simp [close] at unclosed
            rw [if_pos close, if_neg deeper] at decided
            rwa [notOpen, if_neg Bool.false_ne_true, if_pos close]
          · rw [if_neg close] at decided ⊢
            exact decided
        split
        · rename_i comma
          simp only [Bool.and_eq_true, decide_eq_true_eq] at comma
          have isComma : token.isPunctuator [','] = true := comma.1.2
          have notOpen : token.isOpen = false := Token.isPunctuator_of_isPunctuator isComma ['(']
          have notClose : token.isClose = false := Token.isPunctuator_of_isPunctuator isComma [')']
          simp only [notOpen, notClose, Bool.false_eq_true, if_false, comma.1.1] at later
          rw [ih later]
          simp only [Option.map_map]
          rfl
        · rw [ih later]
          simp only [Option.map_map]
          rfl

end Arguments

namespace Head

/-- The head with more tokens after it. -/
def followedBy (more : List Token) : Head → Head
  | plain token rest => .plain token (rest ++ more)
  | builtin kind site rest => .builtin kind site (rest ++ more)
  | rejected code site rest => .rejected code site (rest ++ more)
  | call c => .call { c with rest := c.rest ++ more }

/-- The tokens after a name tell whether it is called, and with which arguments. -/
def Decides (m : Macro) (rest : List Token) : Prop :=
  m.isFunctionLike = true →
    ∃ opening inner, rest = opening :: inner
      ∧ (opening.isOpen = true → Arguments.depthAfter 0 inner = none)

variable {m : Macro} {site : Token} {rest more : List Token}

/-- What stands after a decided call is no part of it. -/
theorem ofMacro_append (decided : Decides m rest ∨ ∀ token ∈ more, token.isEnd = true) :
    ofMacro m site (rest ++ more) = (ofMacro m site rest).followedBy more := by
  unfold ofMacro
  cases form : m.replacement with
  | builtin kind => rfl
  | object body => rfl
  | function p body =>
    have isFunctionLike : m.isFunctionLike = true := by simp only [Macro.isFunctionLike, form]
    cases rest with
    | nil =>
      obtain decides | ends := decided
      · obtain ⟨_, _, same, -⟩ := decides isFunctionLike
        cases same
      · cases more with
        | nil => rfl
        | cons token more =>
          have notOpen : token.isOpen = false := by
            have kind : token.kind = .endOfFile := by simpa [Token.isEnd] using ends token (by simp)
            simp [Token.isOpen, Token.isPunctuator, kind]
          simp only [List.nil_append, notOpen, Bool.false_eq_true, if_false]
          rfl
    | cons opening inner =>
      simp only [List.cons_append]
      split
      · rename_i isOpen
        have closed : Arguments.depthAfter 0 inner = none
            ∨ ∀ token ∈ more.head?, token.isEnd = true := by
          refine decided.imp (fun decides => ?_) fun ends token first =>
            ends token (List.mem_of_mem_head? first)
          obtain ⟨_, _, same, closed⟩ := decides isFunctionLike
          cases same
          exact closed isOpen
        rw [Arguments.read_append closed]
        cases Arguments.read (Arguments.separators p) 0 inner with
        | none => rfl
        | some a =>
          simp only [Option.map_some]
          cases Arguments.fit p a.pieces with
          | error code => rfl
          | ok arguments => rfl
      · rfl

/-- A token that stays where a list is expanded does not end a file. -/
theorem isEnd_of_read {table : MacroTable} {tokens : List Token} {token : Token} {rest : List Token}
    (found : read table tokens = some (.plain token rest)
      ∨ ∃ code, read table tokens = some (.rejected code token rest)) : token.isEnd = false := by
  obtain found | ⟨code, found⟩ := found
  all_goals
    obtain ⟨head, behind, rfl, goesOn, form⟩ := eq_cons_of_read found
    rw [ofToken] at form
    split at form
  · cases form
    exact goesOn
  · exact site_of_ofMacro.1 _ _ form ▸ goesOn
  · cases form
  · exact site_of_ofMacro.2.2 _ _ _ form ▸ goesOn

/-- The head of a list is the same with ends of files after it. -/
theorem read_append_ends (table : MacroTable) (tokens : List Token) {ends : List Token}
    (areEnds : ∀ token ∈ ends, token.isEnd = true) :
    Head.read table (tokens ++ ends) = (Head.read table tokens).map (followedBy ends) := by
  cases tokens with
  | nil =>
    cases ends with
    | nil => rfl
    | cons token more => simp only [List.nil_append, read, areEnds token (by simp), if_true, Option.map_none]
  | cons token rest =>
    simp only [List.cons_append, read]
    split
    · rfl
    · unfold ofToken
      split
      · rfl
      · rw [ofMacro_append (.inr areEnds)]
        rfl

/-- A call has arguments without ends of files. -/
theorem inside_of_ofMacro {c : Call} (found : ofMacro m site rest = .call c) :
    c.called = m ∧ ∀ written ∈ c.arguments, Inside written := by
  unfold ofMacro at found
  split at found
  · cases found
  · cases found
    exact ⟨rfl, nofun⟩
  · split at found
    · cases found
    · split at found
      · split at found
        · cases found
        · rename_i a read
          split at found
          · cases found
          · rename_i arguments fits
            cases found
            refine ⟨rfl, fun written member => ?_⟩
            obtain piece | rfl := Arguments.mem_of_fit fits written member
            · exact Arguments.inside_of_read read written piece
            · exact .nil
      · cases found

end Head

/-! ## Expansion -/

/-- No replacement list has an end of a file in it. -/
def MacroTable.IsInside (table : MacroTable) : Prop :=
  ∀ m ∈ table.macros, Inside m.body

namespace Expansion

variable (ctx : Context)

theorem isEnd_expandBuiltin (kind : Builtin) (site : Token) (s : State) :
    (expandBuiltin ctx kind site s).1.isEnd = false := by
  cases kind <;> rfl

/-- Expansion gives no end of a file. -/
theorem inside_expandAll (tokens : List Token) (s : State) :
    Inside (expandAll ctx tokens s).1 := by
  fun_induction expandAll ctx tokens s with
  | case1 tokens s found => exact .nil
  | case2 tokens s token rest found more after expanded ih =>
    rw [expanded] at ih
    exact .cons (Head.isEnd_of_read (.inl found)) ih
  | case3 tokens s kind site rest found token t built more after expanded ih =>
    rw [expanded] at ih
    have more := isEnd_expandBuiltin ctx kind site s
    rw [built] at more
    exact .cons more ih
  | case4 tokens s code site rest found more after expanded ih =>
    rw [expanded] at ih
    exact .cons (Head.isEnd_of_read (.inr ⟨code, found⟩)) ih
  | case5 tokens s c found args done inner =>
    rename_i ih
    exact ih

/-- Ends of files after the tokens make no difference. -/
theorem expandAll_append_ends (tokens : List Token) {ends : List Token}
    (areEnds : ∀ token ∈ ends, token.isEnd = true) (s : State) :
    expandAll ctx (tokens ++ ends) s = expandAll ctx tokens s := by
  fun_induction expandAll ctx tokens s with
  | case1 tokens s found => rw [expandAll_eq, Head.read_append_ends _ _ areEnds, found]; rfl
  | case2 tokens s token rest found more after expanded ih =>
    rw [expandAll_eq, Head.read_append_ends _ _ areEnds, found]
    simp only [Option.map_some, Head.followedBy, ih, expanded]
  | case3 tokens s kind site rest found token t built more after expanded ih =>
    rw [expandAll_eq, Head.read_append_ends _ _ areEnds, found]
    simp only [Option.map_some, Head.followedBy, built, ih, expanded]
  | case4 tokens s code site rest found more after expanded ih =>
    rw [expandAll_eq, Head.read_append_ends _ _ areEnds, found]
    simp only [Option.map_some, Head.followedBy, ih, expanded]
  | case5 tokens s c found args done inner =>
    rename_i ih
    have replaced : expandCall ctx c s = (replacement c.site c.hidden done.result, done.state) := by
      simp only [done, args, List.map_attach_eq_pmap, List.pmap_eq_map]
      rfl
    have same : expandCall ctx { c with rest := c.rest ++ ends } s = expandCall ctx c s := rfl
    rw [expandAll_eq, Head.read_append_ends _ _ areEnds, found]
    simp only [Option.map_some, Head.followedBy, same, replaced]
    rw [← List.append_assoc]
    exact ih

/-- Tokens that call no macro stay. -/
theorem expandAll_of_uncalled {tokens : List Token} (inside : Inside tokens)
    (uncalled : ∀ token ∈ tokens, Head.called? ctx.table token = none) (s : State) :
    expandAll ctx tokens s = (tokens, s) := by
  induction tokens with
  | nil => rw [expandAll_eq]; rfl
  | cons token rest ih =>
    obtain ⟨stays, later⟩ := List.forall_mem_cons.mp uncalled
    obtain ⟨more, restInside⟩ := List.forall_mem_cons.mp inside
    rw [expandAll_eq, Head.read, more, if_neg Bool.false_ne_true, Head.ofToken, stays]
    simp only [ih restInside later]

theorem inside_replacement (site : Token) (hidden : HideSet) {body : List Token}
    (inside : Inside body) : Inside (replacement site hidden body) := by
  cases body with
  | nil => exact .nil
  | cons token rest =>
    obtain ⟨head, tail⟩ := List.forall_mem_cons.mp inside
    exact .cons head (List.forall_mem_map.mpr tail)

/-- What replaces a call does not end a file if the replacement list has no end of a file in it. -/
theorem inside_expandCall {m : Macro} (body : Inside m.body) {site : Token} {rest : List Token}
    {c : Call} (found : Head.ofMacro m site rest = .call c) (s : State) :
    Inside (expandCall ctx c s).1 := by
  obtain ⟨called, arguments⟩ := Head.inside_of_ofMacro found
  have argsInside : ∀ argument ∈ c.arguments.map fun written : List Token =>
      (⟨written, expandAll ctx written⟩ : Argument), argument.All fun token => token.isEnd = false := by
    intro argument member
    obtain ⟨written, isArgument, rfl⟩ := List.mem_map.mp member
    exact ⟨arguments written isArgument, inside_expandAll ctx written⟩
  have body : Inside c.called.body := called ▸ body
  unfold expandCall
  exact inside_replacement _ _ (Substitution.inside_run argsInside c.called.parameters body s)

end Expansion

end CPreprocessor
