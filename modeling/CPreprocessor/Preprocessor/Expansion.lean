/-
# The next expanded token

Calls are replaced until the first token is one that stays. It leaves less than
there was, so asking again and again comes to the end of the main file.
-/
import CPreprocessor.Preprocessor.Progress

namespace CPreprocessor.Preprocessor

/-- The next token that is not expanded any more. -/
def expandNext (setup : Setup) (p : Preprocessor) : Token × Preprocessor :=
  match _taken : p.take setup with
  | (site, q) =>
    match _called : Head.called? q.reader.session.macros site with
    | none => (site, q)
    | some m =>
      match _found : headOfMacro setup m site q with
      | (.plain _ rest, r) => (site, { reader := r, pending := rest })
      | (.builtin kind _ rest, r) =>
        let done := Expansion.expandBuiltin (context setup r) kind site r.session.expansion
        (done.1, { reader := withExpansion r done.2, pending := rest })
      | (.rejected code _ rest, r) =>
        (site, { reader := r.report site code site.lexeme, pending := rest })
      | (.call c, r) => expandNext setup (replaceCall setup r c)
  termination_by amount setup p
  decreasing_by exact lex_of_less (less_of_replaceCall _taken _called _found)

/-- What is left after the next expanded token: less, or not more if the token ends the main
file. -/
def Progress (setup : Setup) (p : Preprocessor) (result : Token × Preprocessor) : Prop :=
  NotMore setup result.2 p ∧ (result.1.isEnd = false → Less setup result.2 p)

variable {setup : Setup}

theorem progress_of_taken {p q : Preprocessor} {site : Token} (taken : p.take setup = (site, q)) :
    Progress setup p (site, q) := by
  have notMore := notMore_take setup p
  have less := @less_take setup p
  rw [taken] at notMore less
  exact ⟨notMore, less⟩

/-- A token that stays leaves less: the token itself has been taken. -/
theorem progress_of_head {p q : Preprocessor} {site token : Token} {m : Macro} {r : Reader}
    {rest : List Token} {head : Head} (taken : p.take setup = (site, q))
    (called : Head.called? q.reader.session.macros site = some m)
    (found : headOfMacro setup m site q = (head, r))
    (same : ∀ gathered, head = Head.ofMacro m site gathered → rest = gathered)
    (expansion : Expansion.State) :
    Progress setup p (token, { reader := withExpansion r expansion, pending := rest }) := by
  have qLess := (progress_of_taken taken).2 (Head.isEnd_of_called? called)
  obtain ⟨gathered, form, added⟩ := head_of_headOfMacro found
  rw [← same gathered form] at added
  have less := (notMore_of_gathered added expansion).trans_less qLess
  exact ⟨.inl less, fun _ => less⟩

/-- Every expanded token but the end of the main file leaves less. -/
theorem expandNext_progress (p : Preprocessor) : Progress setup p (expandNext setup p) := by
  fun_induction expandNext setup p with
  | case1 p site q taken notCalled => exact progress_of_taken taken
  | case2 p site q taken m called token rest r found =>
    exact progress_of_head taken called found (fun _ form => Head.rest_of_ofMacro.1 _ _ form.symm)
      r.session.expansion
  | case3 p site q taken m called kind token rest r found done =>
    exact progress_of_head taken called found
      (fun _ form => Head.rest_of_ofMacro.2.1 _ _ _ form.symm) _
  | case4 p site q taken m called code token rest r found =>
    exact progress_of_head taken called found
      (fun _ form => Head.rest_of_ofMacro.2.2 _ _ _ form.symm) _
  | case5 p site q taken m called c r found ih =>
    have less := less_of_replaceCall taken called found
    exact ⟨.inl (ih.1.trans_less less), fun more => (ih.2 more).trans less⟩

end CPreprocessor.Preprocessor
