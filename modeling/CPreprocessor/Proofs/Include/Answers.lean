/-
# Answers that are right

A resolver is sound if its cache holds answers to questions about directories without bars
only: then no question is mistaken for another one (`search_eq_of_key`), and what the
resolver answers is what the files and the search path say (`Resolver.IsSound.ask`).
-/
import CPreprocessor.Directive.Session
import CPreprocessor.Proofs.Include.Lookup

namespace CPreprocessor

namespace Question

/-- The name of the directory that the question is about holds no bar. -/
def HasPlainDirectory : Question → Prop
  | .header _ _ includingFile => '|' ∉ Path.parent includingFile
  | .next _ _ => True

/-- What the files and the search path say. -/
def answer (files : FileSystem) (searchPath : List Text) (question : Question) : Option Header :=
  if Path.isAbsolute question.name then
    Resolver.absoluteHeader files question.name
  else
    question.search files searchPath

/-- Questions about directories without bars are not mistaken for each other. -/
theorem not_mistakenFor {question question' : Question} (plain : question.HasPlainDirectory)
    (plain' : question'.HasPlainDirectory) : ¬question.MistakenFor question' := by
  rintro ⟨differ, same⟩
  -- The longer one of two different directories would go on with the bar after the shorter one.
  obtain ⟨between, longer, rest⟩ | ⟨between, longer, rest⟩ := List.append_eq_append_iff.mp same
  all_goals cases between with
    | nil => simp_all
    | cons c between =>
      rw [List.cons_append, List.cons.injEq] at rest
      simp_all [HasPlainDirectory]

end Question

namespace Resolver

variable {files : FileSystem} {searchPath : List Text} {resolver : Resolver} {question : Question}

/-- The resolver has the search path, and all that it keeps are answers to questions about directories
without bars. -/
def IsSound (files : FileSystem) (searchPath : List Text) (resolver : Resolver) : Prop :=
  resolver.searchPath = searchPath
    ∧ ∃ asked, (∀ question ∈ asked, question.HasPlainDirectory) ∧ resolver.Knows files asked

/-- The number of lookups in the cache. -/
def lookups (resolver : Resolver) : Nat :=
  resolver.cache.hits + resolver.cache.misses

/-- A sound resolver gives the right answer and stays sound. -/
theorem IsSound.ask (sound : resolver.IsSound files searchPath) (plain : question.HasPlainDirectory) :
    (resolver.ask files question).1 = question.answer files searchPath
      ∧ (resolver.ask files question).2.IsSound files searchPath := by
  obtain ⟨rfl, asked, plains, knows⟩ := sound
  obtain ⟨path, after⟩ := knows.after question
  refine ⟨?_, path, question :: asked, List.forall_mem_cons.mpr ⟨plain, plains⟩, after⟩
  unfold Question.answer
  cases absolute : Path.isAbsolute question.name with
  | true => exact congrArg Prod.fst (ask_of_isAbsolute absolute)
  | false =>
    obtain same | ⟨earlier, isEarlier, -, key, same⟩ := knows.ask absolute
    · exact same
    · obtain alike | mistaken := search_eq_of_key key files resolver.searchPath
      · exact same.trans alike
      · exact absurd mistaken (Question.not_mistakenFor (plains earlier isEarlier) plain)

/-- A relative name is looked up in the cache, an absolute one is not. -/
theorem lookups_ask (files : FileSystem) (resolver : Resolver) (question : Question) :
    (resolver.ask files question).2.lookups
      = resolver.lookups + if Path.isAbsolute question.name then 0 else 1 := by
  cases absolute : Path.isAbsolute question.name with
  | true =>
    rw [ask_of_isAbsolute absolute]
    rfl
  | false =>
    have counted : (resolver.cache.get (keyOf question)).2.hits
          + (resolver.cache.get (keyOf question)).2.misses
        = resolver.lookups + 1 := (resolver.cache.counts_get _).2
    rw [ask_of_relative absolute, remember, ← Prod.eta (resolver.cache.get _)]
    cases (resolver.cache.get (keyOf question)).1 with
    | some value => exact counted
    | none =>
      obtain ⟨-, hits, misses⟩ := (resolver.cache.get (keyOf question)).2.counts_put (keyOf question)
        (question.search files resolver.searchPath)
      exact (congrArg₂ (· + ·) hits misses).trans counted

end Resolver

namespace Session

/-- What a session asks its resolver for a header. -/
def headerQuestion (place : Place) (next : Bool) (name : IncludeName) : Question :=
  if next && place.searchIndex.isSome then
    .next name.name place.searchIndex
  else
    .header name.name name.form place.path

theorem findHeader_eq_ask (s : Session) (setup : Setup) (place : Place) (next : Bool)
    (name : IncludeName) :
    s.findHeader setup place next name
      = ((s.resolver.ask setup.files (headerQuestion place next name)).1,
        { s with resolver := (s.resolver.ask setup.files (headerQuestion place next name)).2 }) := by
  unfold findHeader headerQuestion
  cases next && place.searchIndex.isSome <;> rfl

theorem name_headerQuestion (place : Place) (next : Bool) (name : IncludeName) :
    (headerQuestion place next name).name = name.name := by
  unfold headerQuestion
  split <;> rfl

theorem hasPlainDirectory_headerQuestion {place : Place} (plain : '|' ∉ Path.parent place.path)
    (next : Bool) (name : IncludeName) : (headerQuestion place next name).HasPlainDirectory := by
  unfold headerQuestion
  split
  · trivial
  · exact plain

end Session

end CPreprocessor
