/-
# Runs and expanded lists

A run expands tokens as it pulls them. When its main file has no directives, it gives the
tokens that the expansion of the whole list gives, one after the other
(`tokensWithin_holds`): a call for a token takes one step of the expansion of what is
pending and of what the reader supplies (`expandNext_holds`).
-/
import CPreprocessor.Proofs.Run.Supply

namespace CPreprocessor

open Expansion

theorem Expansion.expandBuiltin_congr (ctx : Context) (kind : Builtin) (site : Token) (s s' : State)
    (counter : s.counter = s'.counter) :
    (expandBuiltin ctx kind site s).1 = (expandBuiltin ctx kind site s').1
      ∧ (expandBuiltin ctx kind site s).2.counter = (expandBuiltin ctx kind site s').2.counter := by
  simp only [expandBuiltin, counter, true_and]
  split
  · rfl
  · exact counter

namespace Preprocessor

variable {setup : Setup} {ctx : Context} {counter : Nat} {tokens : List Token} {final : Token}
  {p q : Preprocessor}

/-- The tokens that expansion gives, when `counter` is the next number of `__COUNTER__`. -/
abbrev expanded (ctx : Context) (counter : Nat) (tokens : List Token) : List Token :=
  (expandAll ctx tokens { counter }).1

/-- The run still has to expand these tokens: they are pending, and then supplied by its reader. No
file ends in them but with the end of the main file. -/
structure Holds (setup : Setup) (ctx : Context) (counter : Nat) (tokens : List Token) (final : Token)
    (p : Preprocessor) : Prop where
  exists_supply : ∃ supplied, p.reader.Supplies setup ctx counter supplied final
    ∧ p.pending ++ supplied = tokens
  ends : ∀ token ∈ tokens, token.isEnd = true → token = final

/-- A name calls a macro, and what was gathered after it tells what expansion does with the tokens that
the run held before. -/
structure Calls (setup : Setup) (ctx : Context) (counter : Nat) (tokens : List Token) (final : Token)
    (m : Macro) (site : Token) (gathered : List Token) (r : Reader) (more : List Token)
    (q : Preprocessor) : Prop where
  head : headOfMacro setup m site q = (Head.ofMacro m site gathered, r)
  supplies : r.Supplies setup ctx counter more final
  ends : ∀ token ∈ gathered ++ more, token.isEnd = true → token = final
  known : m ∈ ctx.table.macros
  read : Head.read ctx.table (site :: (gathered ++ more))
    = some ((Head.ofMacro m site gathered).followedBy more)
  same : expanded ctx counter tokens = expanded ctx counter (site :: (gathered ++ more))

theorem expanded_append_ends (ends : ∀ token ∈ tokens, token.isEnd = true) (first : List Token) :
    expanded ctx counter (first ++ tokens) = expanded ctx counter first := by
  rw [expanded, expandAll_append_ends ctx first ends]

/-- Which tokens are given does not depend on what was reported. -/
theorem expanded_eq (s : State) : expanded ctx s.counter tokens = (expandAll ctx tokens s).1 :=
  (expandAll_congr ctx tokens { counter := s.counter } s rfl).1

section Expanding

variable (lenient : setup.config.failFast = false)
include lenient

/-- The first of the tokens is taken, or the end of the file. -/
theorem Holds.take (holds : p.Holds setup ctx counter tokens final) :
    ∃ rest ends, (p.take setup).2.Holds setup ctx counter rest final
      ∧ (p.take setup).1 :: rest = tokens ++ ends ∧ ∀ token ∈ ends, token = final := by
  obtain ⟨⟨supplied, supplies, rfl⟩, areEnds⟩ := holds
  unfold Preprocessor.take
  cases pending : p.pending with
  | cons token rest =>
    rw [pending] at areEnds
    have later := (List.forall_mem_cons.mp areEnds).2
    exact ⟨rest ++ supplied, [], ⟨⟨supplied, supplies, rfl⟩, later⟩, (List.append_nil _).symm, nofun⟩
  | nil =>
    obtain ⟨more, ends, gathers⟩ := pull_supplied lenient supplies
    refine ⟨more, ends, ⟨⟨more, gathers.supplies, ?_⟩, ?_⟩, gathers.parts, gathers.ends⟩
    · simp only [List.nil_append]
    · intro token member isEnd
      rw [gathers.supplies.inside token member] at isEnd
      cases isEnd

/-- A name that calls a macro is the first of the tokens. -/
theorem Holds.exists_calls (holds : p.Holds setup ctx counter tokens final) {site : Token} {m : Macro}
    (taken : p.take setup = (site, q)) (called : Head.called? q.reader.session.macros site = some m) :
    ∃ gathered r more, q.Calls setup ctx counter tokens final m site gathered r more := by
  obtain ⟨rest, ends, holds', parts, areEnds⟩ := holds.take lenient
  rw [taken] at holds' parts
  obtain ⟨⟨supplied, supplies, rfl⟩, restEnds⟩ := holds'
  obtain ⟨gathered, more, ends', found, gathers, decides⟩ :=
    headOfMacro_supplied lenient supplies m site
  have isEnd : final.isEnd = true := supplies.isEnd
  have endsAreEnds : ∀ token ∈ ends, token.isEnd = true := fun token member =>
    areEnds token member ▸ isEnd
  have endsAreEnds' : ∀ token ∈ ends', token.isEnd = true := fun token member =>
    gathers.ends token member ▸ isEnd
  rw [supplies.macros] at called
  refine ⟨gathered.1, gathered.2, more, found, gathers.supplies, ?_, Head.mem_of_called? called, ?_, ?_⟩
  · rw [gathers.parts]
    exact List.forall_mem_append.mpr ⟨restEnds, fun token member _ => gathers.ends token member⟩
  · rw [Head.read, if_neg (by simp [Head.isEnd_of_called? called]), Head.ofToken, called]
    exact congrArg some (Head.ofMacro_append (.inl decides))
  · rw [gathers.parts, ← List.cons_append, expanded_append_ends endsAreEnds', parts,
      expanded_append_ends endsAreEnds]

/-- The next expanded token is the first one that expansion gives, and the run holds what gives the
others; at the end of the tokens it is the end of the file. -/
theorem expandNext_holds (inside : ctx.table.IsInside)
    (holds : p.Holds setup ctx counter tokens final) :
    ∃ counter' rest, (p.expandNext setup).2.Holds setup ctx counter' rest final
      ∧ ((p.expandNext setup).1 = final ∧ expanded ctx counter tokens = []
        ∨ (p.expandNext setup).1.isEnd = false
          ∧ expanded ctx counter tokens
            = (p.expandNext setup).1 :: expanded ctx counter' rest) := by
  fun_induction expandNext setup p generalizing counter tokens with
  | case1 p site q taken notCalled =>
    obtain ⟨rest, ends, holds', parts, areEnds⟩ := holds.take lenient
    rw [taken] at holds' parts
    obtain ⟨supplied, supplies, -⟩ := holds'.exists_supply
    rw [supplies.macros] at notCalled
    have same : expanded ctx counter tokens = expanded ctx counter (site :: rest) := by
      rw [parts, expanded_append_ends fun token member => areEnds token member ▸ supplies.isEnd]
    refine ⟨counter, rest, holds', ?_⟩
    rw [same, expanded, expandAll_eq, Head.read]
    cases isEnd : site.isEnd with
    | true =>
      have member : site ∈ tokens ++ ends := parts ▸ List.mem_cons_self
      obtain inside | behind := List.mem_append.mp member
      · exact .inl ⟨holds.ends site inside isEnd, rfl⟩
      · exact .inl ⟨areEnds site behind, rfl⟩
    | false =>
      rw [if_neg Bool.false_ne_true, Head.ofToken, notCalled]
      exact .inr ⟨rfl, rfl⟩
  | case2 p site q taken m called token rest r found =>
    obtain ⟨gathered, r', more, calls⟩ := holds.exists_calls lenient taken called
    obtain ⟨head, rfl⟩ := Prod.mk.inj (calls.head.symm.trans found)
    obtain rfl := Head.rest_of_ofMacro.1 _ _ head
    obtain rfl := Head.site_of_ofMacro.1 _ _ head
    refine ⟨counter, _, ⟨⟨more, calls.supplies, rfl⟩, calls.ends⟩, .inr ⟨?_, ?_⟩⟩
    · exact Head.isEnd_of_called? called
    · rw [calls.same, expanded, expandAll_eq, calls.read, head]
      rfl
  | case3 p site q taken m called kind token rest r found =>
    rename_i done
    obtain ⟨gathered, r', more, calls⟩ := holds.exists_calls lenient taken called
    obtain ⟨head, rfl⟩ := Prod.mk.inj (calls.head.symm.trans found)
    obtain rfl := Head.rest_of_ofMacro.2.1 _ _ _ head
    obtain rfl := Head.site_of_ofMacro.2.1 _ _ _ head
    obtain ⟨given, counts⟩ := expandBuiltin_congr ctx kind token r'.session.expansion { counter }
      calls.supplies.counter
    have built : done = expandBuiltin ctx kind token r'.session.expansion := by
      rw [← calls.supplies.context_eq]
    rw [built]
    refine ⟨_, _, ⟨⟨more, calls.supplies.withExpansion _, rfl⟩, calls.ends⟩, .inr ⟨?_, ?_⟩⟩
    · exact isEnd_expandBuiltin ctx kind token _
    · rw [calls.same, expanded, expandAll_eq, calls.read, head, counts, given, expanded_eq]
      rfl
  | case4 p site q taken m called code token rest r found =>
    obtain ⟨gathered, r', more, calls⟩ := holds.exists_calls lenient taken called
    obtain ⟨head, rfl⟩ := Prod.mk.inj (calls.head.symm.trans found)
    obtain rfl := Head.rest_of_ofMacro.2.2 _ _ _ head
    obtain rfl := Head.site_of_ofMacro.2.2 _ _ _ head
    refine ⟨counter, _, ⟨⟨more, calls.supplies.report _ _ _, rfl⟩, calls.ends⟩, .inr ⟨?_, ?_⟩⟩
    · exact Head.isEnd_of_called? called
    · rw [calls.same, expanded, expandAll_eq, calls.read, head]
      exact congrArg (token :: ·) (expanded_eq _).symm
  | case5 p site q taken m called c r found ih =>
    obtain ⟨gathered, r', more, calls⟩ := holds.exists_calls lenient taken called
    obtain ⟨head, rfl⟩ := Prod.mk.inj (calls.head.symm.trans found)
    obtain ⟨given, counts⟩ := expandCall_congr ctx c r'.session.expansion { counter }
      calls.supplies.counter
    have replacedInside := inside_expandCall ctx (inside m calls.known) head r'.session.expansion
    have later : (replaceCall setup r' c).Holds setup ctx
        (expandCall ctx c r'.session.expansion).2.counter
        ((expandCall ctx c r'.session.expansion).1 ++ (c.rest ++ more)) final := by
      unfold replaceCall
      rw [calls.supplies.context_eq]
      refine ⟨⟨more, calls.supplies.withExpansion _, List.append_assoc _ _ _⟩, ?_⟩
      refine List.forall_mem_append.mpr ⟨fun token member isEnd => ?_, fun token member => ?_⟩
      · rw [replacedInside token member] at isEnd
        cases isEnd
      · refine calls.ends token ?_
        obtain here | behind := List.mem_append.mp member
        · exact List.mem_append_left _ ((Head.rest_suffix_of_ofMacro head).subset here)
        · exact List.mem_append_right _ behind
    obtain ⟨counter', rest, holds', gives⟩ := ih later
    refine ⟨counter', rest, holds', ?_⟩
    have same : expanded ctx counter tokens
        = expanded ctx (expandCall ctx c r'.session.expansion).2.counter
            ((expandCall ctx c r'.session.expansion).1 ++ (c.rest ++ more)) := by
      rw [calls.same, expanded, expandAll_eq, calls.read, head, counts, given, expanded_eq]
      rfl
    rw [same]
    exact gives

/-- Without pragma operators, the next token is the next expanded one. -/
theorem next_of_holds (running : p.reader.status = .ok)
    (holds : (p.expandNext setup).2.Holds setup ctx counter tokens final)
    (plain : startsPragma (p.expandNext setup).1 = false) : p.next setup = p.expandNext setup := by
  obtain ⟨supplied, supplies, -⟩ := holds.exists_supply
  have notAborted : ¬p.isAborted = true := by
    simp [isAborted, running]
  have same : (p.expandNext setup).2.checkAbort setup = (p.expandNext setup).2 := by
    simp only [checkAbort, Reader.checkAbort, lenient, Bool.false_and, Bool.false_eq_true, if_false]
  have goesOn : ¬(p.expandNext setup).2.isAborted = true := by
    simp [isAborted, supplies.ok]
  rw [next_of_running notAborted, plain, if_neg Bool.false_ne_true, same, give, if_neg goesOn]

/-- The run gives the tokens that expansion gives, and then the end of the file. -/
theorem tokensWithin_holds (inside : ctx.table.IsInside)
    (holds : p.Holds setup ctx counter tokens final)
    (noPragma : ∀ token ∈ expanded ctx counter tokens, startsPragma token = false) {n : Nat}
    (enough : (expanded ctx counter tokens).length < n) :
    (p.tokensWithin setup n).1 = expanded ctx counter tokens ++ [final] := by
  induction n generalizing p counter tokens with
  | zero => cases enough
  | succ n ih =>
    obtain ⟨supplied, supplies, -⟩ := holds.exists_supply
    obtain ⟨counter', rest, holds', gives⟩ := expandNext_holds lenient inside holds
    obtain ⟨ends, nothing⟩ | ⟨goesOn, first⟩ := gives
    · have isEnd : (p.expandNext setup).1.isEnd = true := by
        rw [ends]
        exact supplies.isEnd
      have next := next_of_holds lenient supplies.ok holds' (startsPragma_of_isEnd isEnd)
      rw [tokensWithin, next, if_pos isEnd, nothing, ends]
      rfl
    · rw [first] at noPragma enough
      obtain ⟨here, later⟩ := List.forall_mem_cons.mp noPragma
      have next := next_of_holds lenient supplies.ok holds' here
      have more := ih holds' later (Nat.lt_of_succ_lt_succ enough)
      rw [tokensWithin, next, if_neg (by simp [goesOn]), first]
      exact congrArg ((p.expandNext setup).1 :: ·) more

end Expanding

end Preprocessor

end CPreprocessor
