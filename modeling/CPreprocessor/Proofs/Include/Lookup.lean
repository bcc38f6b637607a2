/-
# Looking for headers with a cache

Which header a question asks for is decided by the files and the search path alone
(`Question.IsAnswer`). The cache keeps answers under texts, and a text may stand for two
questions: a directory and a quoted name are put together with a bar between them, and
either may hold bars of its own. So a resolver gives the answer of the question that it is
asked, or of an earlier one for which it mistakes the question (`isAnswer_ask`). Where
neither name of two questions holds a bar, none of them is mistaken for the other.
-/
import CPreprocessor.Include.Resolver
import CPreprocessor.Proofs.Include.Linkage
import CPreprocessor.Proofs.Lexing.Runs
import Mathlib.Tactic.SplitIfs

namespace CPreprocessor

namespace Cache

variable {κ ν : Type} [DecidableEq κ] {cache : Cache κ ν}

/-- A lookup adds no entry. -/
theorem entries_get_subset (cache : Cache κ ν) (key : κ) :
    (cache.get key).2.entries ⊆ cache.entries := by
  unfold get
  split
  · exact ((Cell.toFront_perm _ _).map _).subset
  · exact List.Subset.refl _

namespace IsLinked

theorem mem_of_get (linked : cache.IsLinked) {key : κ} {value : ν}
    (found : (cache.get key).1 = some value) : (key, value) ∈ cache.entries := by
  obtain ⟨-, given⟩ := linked.get key
  have distinct : (cache.entries.map Prod.fst).Nodup := by
    rw [entries, Cell.map_fst_entry]
    exact linked.keys
  rw [← lookup_eq_some_iff_mem distinct, ← found]
  cases known : cache.entries.lookup key with
  | some value => rw [known] at given; exact (congrArg Prod.fst given).symm
  | none => rw [known] at given; exact (congrArg Prod.fst given).symm

theorem entries_put_subset (linked : cache.IsLinked) (key : κ) (value : ν) :
    (cache.put key value).entries ⊆ (key, value) :: cache.entries := by
  rw [(linked.put key value).2]
  exact List.Subset.trans (List.take_subset _ _)
    (List.cons_subset_cons _ List.filter_sublist.subset)

end IsLinked

end Cache

/-- What a resolver is asked. -/
inductive Question where
  /-- For the header of a name that a file includes. -/
  | header (name : Text) (form : IncludeForm) (includingFile : Text)
  /-- For the next header of a name, after a place on the search path. -/
  | next (name : Text) (present : Option Nat)

namespace Question

/-- The first header of a name on the search path, from some place on. -/
def IsFirst (files : FileSystem) (searchPath : List Text) (name : Text) (start : Nat) :
    Option Header → Prop
  | some found => ∃ i, ∃ inside : i < searchPath.length, start ≤ i
      ∧ found = ⟨Path.normal (Path.append searchPath[i] name),
        files.canonical (Path.append searchPath[i] name), some i⟩
      ∧ files.isReadable (Path.append searchPath[i] name) = true
      ∧ ∀ j, ∀ earlier : j < i, start ≤ j →
        files.isReadable (Path.append searchPath[j] name) = false
  | none => ∀ i, ∀ inside : i < searchPath.length, start ≤ i →
      files.isReadable (Path.append searchPath[i] name) = false

/-- The name that is asked for. -/
def name : Question → Text
  | .header name _ _ => name
  | .next name _ => name

/-- The answer of a question for a relative name. A quoted name is looked for next to the including file
first, and it has no place on the search path there. -/
def IsRelativeAnswer (files : FileSystem) (searchPath : List Text) (answer : Option Header) :
    Question → Prop
  | .header name form includingFile =>
    let near := Path.append (Path.parent includingFile) name
    if form = .quoted ∧ files.isReadable near = true then
      answer = some ⟨Path.normal near, files.canonical near, none⟩
    else
      IsFirst files searchPath name 0 answer
  | .next name present => IsFirst files searchPath name (Resolver.following present) answer

/-- The answer of a question. An absolute name is taken as it is. -/
def IsAnswer (files : FileSystem) (searchPath : List Text) (question : Question)
    (answer : Option Header) : Prop :=
  if Path.isAbsolute question.name then
    answer = if files.isReadable question.name then
      some ⟨question.name, files.canonical question.name, none⟩ else none
  else
    question.IsRelativeAnswer files searchPath answer

/-- The second question is mistaken for the first one: both ask for quoted names in different
directories, and a bar between directory and name hides where the one ends. -/
inductive MistakenFor : Question → Question → Prop where
  | bar {name name' includingFile includingFile' : Text}
      (differ : Path.parent includingFile ≠ Path.parent includingFile')
      (same : Path.parent includingFile ++ '|' :: name = Path.parent includingFile' ++ '|' :: name') :
      MistakenFor (.header name .quoted includingFile) (.header name' .quoted includingFile')

/-- One of two questions that are mistaken has a bar in its name. -/
theorem MistakenFor.mem_name {question question' : Question}
    (mistaken : question.MistakenFor question') : '|' ∈ question.name ∨ '|' ∈ question'.name := by
  obtain ⟨differ, same⟩ := mistaken
  obtain ⟨between, longer, rest⟩ | ⟨between, longer, rest⟩ := List.append_eq_append_iff.mp same
  · cases between with
    | nil => exact absurd (longer.trans (List.append_nil _)).symm differ
    | cons c between =>
      left
      rw [List.cons_append, List.cons.injEq] at rest
      rw [name, rest.2]
      exact List.mem_append_right _ List.mem_cons_self
  · cases between with
    | nil => exact absurd (longer.trans (List.append_nil _)) differ
    | cons c between =>
      right
      rw [List.cons_append, List.cons.injEq] at rest
      rw [name, rest.2]
      exact List.mem_append_right _ List.mem_cons_self

/-! ## Searching without the cache -/

/-- The answer that a resolver finds without its cache. -/
def search (files : FileSystem) (searchPath : List Text) : Question → Option Header
  | .header name form includingFile =>
    Resolver.lookUp files searchPath name form (Path.parent includingFile)
  | .next name present => Resolver.searchFrom files searchPath name (Resolver.following present)

end Question

open Question

namespace Resolver

variable {files : FileSystem} {searchPath : List Text}

/-- Looking along a part of the search path whose first place has number `index`. -/
theorem search_cases (files : FileSystem) (name : Text) (index : Nat) (part : List Text) :
    (search files name index part = none
      ∧ ∀ i, ∀ inside : i < part.length, files.isReadable (Path.append part[i] name) = false)
    ∨ ∃ i, ∃ inside : i < part.length, search files name index part
          = some ⟨Path.normal (Path.append part[i] name), files.canonical (Path.append part[i] name),
            some (index + i)⟩
        ∧ files.isReadable (Path.append part[i] name) = true
        ∧ ∀ j, ∀ earlier : j < i, files.isReadable (Path.append part[j] name) = false := by
  induction part generalizing index with
  | nil => exact .inl ⟨rfl, nofun⟩
  | cons directory part ih =>
    rw [search, headerAt]
    cases readable : files.isReadable (Path.append directory name) with
    | true => exact .inr ⟨0, Nat.succ_pos _, rfl, readable, nofun⟩
    | false =>
      have unreadable {n : Nat} (later : ∀ j, ∀ small : j < n, ∀ inside : j < part.length,
          files.isReadable (Path.append part[j] name) = false) :
          ∀ j, ∀ _ : j < n + 1, ∀ inside : j < (directory :: part).length,
            files.isReadable (Path.append (directory :: part)[j] name) = false := by
        rintro (_ | j) small inside
        · exact readable
        · exact later j (Nat.lt_of_succ_lt_succ small) (Nat.lt_of_succ_lt_succ inside)
      obtain ⟨missing, all⟩ | ⟨i, inside, found, isReadable, earlier⟩ := ih (index + 1)
      · exact .inl ⟨missing, fun i inside => unreadable (fun j _ => all j) i inside inside⟩
      · refine .inr ⟨i + 1, Nat.succ_lt_succ inside, ?_, isReadable, fun j small =>
          unreadable (fun j small _ => earlier j small) j small _⟩
        rw [Nat.add_right_comm, Nat.add_assoc] at found
        exact found

/-- The search path is searched for the first header. -/
theorem isFirst_searchFrom (files : FileSystem) (searchPath : List Text) (name : Text) (start : Nat) :
    IsFirst files searchPath name start (searchFrom files searchPath name start) := by
  have there {i : Nat} (inside : i < searchPath.length) (from_ : start ≤ i) :
      ∃ small : i - start < (searchPath.drop start).length,
        (searchPath.drop start)[i - start] = searchPath[i] := by
    refine ⟨by rw [List.length_drop]; omega, ?_⟩
    simp only [List.getElem_drop, Nat.add_sub_cancel' from_]
  rw [searchFrom]
  obtain ⟨missing, all⟩ | ⟨i, inside, found, isReadable, earlier⟩ :=
    search_cases files name start (searchPath.drop start)
  · rw [missing]
    intro i inside later
    obtain ⟨small, same⟩ := there inside later
    exact same ▸ all _ small
  · rw [found]
    rw [List.length_drop] at inside
    rw [List.getElem_drop] at isReadable ⊢
    refine ⟨start + i, by omega, Nat.le_add_right _ _, rfl, isReadable, fun j early later => ?_⟩
    obtain ⟨small, same⟩ := there (i := j) (by omega) later
    exact same ▸ earlier _ (by omega)

/-- What is found without the cache is the answer. -/
theorem isAnswer_search {question : Question} (relative : Path.isAbsolute question.name = false) :
    question.IsAnswer files searchPath (question.search files searchPath) := by
  rw [IsAnswer, relative, if_neg Bool.false_ne_true]
  cases question with
  | next name present => exact isFirst_searchFrom files searchPath name _
  | header name form includingFile =>
    simp only [IsRelativeAnswer, Question.search, lookUp]
    cases form with
    | angled =>
      rw [if_neg (fun both => by cases both.1)]
      exact isFirst_searchFrom files searchPath name 0
    | quoted =>
      cases readable : files.isReadable (Path.append (Path.parent includingFile) name) with
      | true =>
        rw [if_pos ⟨rfl, rfl⟩]
        simp only [headerAt, readable, if_true]
        rfl
      | false =>
        rw [if_neg (fun both => by cases both.2)]
        simp only [headerAt, readable, Bool.false_eq_true, if_false]
        exact isFirst_searchFrom files searchPath name 0

/-! ## Asking a resolver -/

/-- Answer a question. -/
def ask (resolver : Resolver) (files : FileSystem) : Question → Option Header × Resolver
  | .header name form includingFile => resolver.resolve files name form includingFile
  | .next name present => resolver.resolveNext files name present

/-- The resolver after some questions. -/
def askAll (resolver : Resolver) (files : FileSystem) (questions : List Question) : Resolver :=
  questions.foldl (fun resolver question => (resolver.ask files question).2) resolver

/-- What the cache knows a question by. -/
def keyOf : Question → Text
  | .header name form includingFile => key name form (Path.parent includingFile)
  | .next name present => nextKey name (following present)

variable {resolver : Resolver} {question : Question}

/-- An absolute name is not looked up in the cache. -/
theorem ask_of_isAbsolute (absolute : Path.isAbsolute question.name = true) :
    resolver.ask files question = (absoluteHeader files question.name, resolver) := by
  cases question <;> exact if_pos absolute

theorem ask_of_relative (relative : Path.isAbsolute question.name = false) :
    resolver.ask files question
      = resolver.remember (keyOf question) fun _ => question.search files resolver.searchPath := by
  cases question <;> exact if_neg (Bool.eq_false_iff.mp relative)

/-- Every entry of the cache is the answer of a question that was asked. -/
structure Knows (resolver : Resolver) (files : FileSystem) (asked : List Question) : Prop where
  linked : resolver.cache.IsLinked
  answers : ∀ entry ∈ resolver.cache.entries, ∃ question ∈ asked,
    Path.isAbsolute question.name = false ∧ keyOf question = entry.1
      ∧ question.search files resolver.searchPath = entry.2

variable {asked : List Question}

/-- A relative name is answered as it would be without the cache, or with what is known by its key. -/
theorem Knows.ask (knows : resolver.Knows files asked)
    (relative : Path.isAbsolute question.name = false) :
    (resolver.ask files question).1 = question.search files resolver.searchPath
      ∨ ∃ earlier ∈ asked, Path.isAbsolute earlier.name = false ∧ keyOf earlier = keyOf question
        ∧ (resolver.ask files question).1 = earlier.search files resolver.searchPath := by
  rw [ask_of_relative relative, remember]
  cases known : (resolver.cache.get (keyOf question)).1 with
  | none =>
    rw [← Prod.eta (resolver.cache.get _), known]
    exact .inl rfl
  | some value =>
    obtain ⟨earlier, isEarlier, relative, key, answer⟩ :=
      knows.answers _ (knows.linked.mem_of_get known)
    rw [← Prod.eta (resolver.cache.get _), known]
    exact .inr ⟨earlier, isEarlier, relative, key, answer.symm⟩

/-- The search path stays, and every entry is still the answer of a question that was asked. -/
theorem Knows.after (knows : resolver.Knows files asked) (question : Question) :
    (resolver.ask files question).2.searchPath = resolver.searchPath
      ∧ (resolver.ask files question).2.Knows files (question :: asked) := by
  have later {entries : List (Text × Option Header)} (kept : entries ⊆ resolver.cache.entries) :
      ∀ entry ∈ entries, ∃ earlier ∈ question :: asked, Path.isAbsolute earlier.name = false
        ∧ keyOf earlier = entry.1 ∧ earlier.search files resolver.searchPath = entry.2 := by
    intro entry member
    obtain ⟨earlier, isEarlier, facts⟩ := knows.answers entry (kept member)
    exact ⟨earlier, List.mem_cons_of_mem _ isEarlier, facts⟩
  cases absolute : Path.isAbsolute question.name with
  | true =>
    rw [ask_of_isAbsolute absolute]
    exact ⟨rfl, knows.linked, later (List.Subset.refl _)⟩
  | false =>
    have kept := resolver.cache.entries_get_subset (keyOf question)
    have linked := (knows.linked.get (keyOf question)).1
    rw [ask_of_relative absolute, remember]
    cases known : (resolver.cache.get (keyOf question)).1 with
    | some value =>
      rw [← Prod.eta (resolver.cache.get _), known]
      exact ⟨rfl, linked, later kept⟩
    | none =>
      rw [← Prod.eta (resolver.cache.get _), known]
      refine ⟨rfl, (linked.put _ _).1, fun entry member => ?_⟩
      obtain rfl | old := List.mem_cons.mp (linked.entries_put_subset _ _ member)
      · exact ⟨question, List.mem_cons_self, absolute, rfl, rfl⟩
      · exact later kept entry old

theorem Knows.askAll (knows : resolver.Knows files asked) (questions : List Question) :
    (resolver.askAll files questions).searchPath = resolver.searchPath
      ∧ (resolver.askAll files questions).Knows files (questions.reverse ++ asked) := by
  induction questions generalizing resolver asked with
  | nil => exact ⟨rfl, knows⟩
  | cons question questions ih =>
    obtain ⟨path, after⟩ := knows.after question
    obtain ⟨path', all⟩ := ih after
    rw [List.reverse_cons, List.append_assoc]
    exact ⟨path'.trans path, all⟩

/-! ## Keys -/

/-- Questions that the cache knows by the same key have the same answer, or one is mistaken for the
other. -/
theorem search_eq_of_key {question' : Question} (same : keyOf question = keyOf question')
    (files : FileSystem) (searchPath : List Text) :
    question.search files searchPath = question'.search files searchPath
      ∨ question.MistakenFor question' := by
  cases question with
  | next name present =>
    cases question' with
    | next name' present' =>
      have same : "n:".toList ++ (Text.ofNat (following present) ++ '|' :: name)
          = "n:".toList ++ (Text.ofNat (following present') ++ '|' :: name') := by
        simpa only [keyOf, nextKey, List.append_assoc] using same
      obtain ⟨place, rfl⟩ := Text.ofNat_append_inj rfl (List.append_cancel_left same)
      rw [Question.search, Question.search, place]
      exact .inl rfl
    | header name' form' includingFile' => cases form' <;> cases same
  | header name form includingFile =>
    cases question' with
    | next name' present' => cases form <;> cases same
    | header name' form' includingFile' =>
      cases form with
      | angled =>
        cases form' with
        | quoted => cases same
        | angled =>
          have same : "a:".toList ++ name = "a:".toList ++ name' := same
          rw [List.append_cancel_left same]
          exact .inl rfl
      | quoted =>
        cases form' with
        | angled => cases same
        | quoted =>
          have same : "q:".toList ++ (Path.parent includingFile ++ '|' :: name)
              = "q:".toList ++ (Path.parent includingFile' ++ '|' :: name') := by
            simpa only [keyOf, key, List.append_assoc] using same
          have same := List.append_cancel_left same
          by_cases directories : Path.parent includingFile = Path.parent includingFile'
          · rw [directories, List.append_cancel_left_eq, List.cons.injEq] at same
            rw [Question.search, Question.search, directories, same.2]
            exact .inl rfl
          · exact .inr (.bar directories same)

/-- After any questions, a resolver gives the answer of the question that it is asked, or that of an
earlier one for which it mistakes the question. -/
theorem isAnswer_ask (files : FileSystem) (searchPath : List Text) {capacity : Nat}
    (positive : 0 < capacity) (before : List Question) (question : Question) :
    let resolver : Resolver := { searchPath, cache := { capacity, capacity_pos := positive } }
    let answer := ((resolver.askAll files before).ask files question).1
    question.IsAnswer files searchPath answer
      ∨ ∃ earlier ∈ before, earlier.MistakenFor question ∧ earlier.IsAnswer files searchPath answer := by
  intro resolver answer
  have nothing : resolver.Knows files [] := ⟨Cache.isLinked_empty positive, nofun⟩
  obtain ⟨path, knows⟩ := nothing.askAll before
  have path : (resolver.askAll files before).searchPath = searchPath := path
  have given : answer = ((resolver.askAll files before).ask files question).1 := rfl
  cases absolute : Path.isAbsolute question.name with
  | true =>
    rw [IsAnswer, absolute, if_pos rfl]
    exact .inl (given.trans (congrArg Prod.fst (ask_of_isAbsolute absolute)))
  | false =>
    rw [given]
    obtain same | ⟨earlier, isEarlier, relative, key, same⟩ := knows.ask absolute
    · rw [same, path]
      exact .inl (isAnswer_search absolute)
    · rw [same, path]
      rw [List.append_nil, List.mem_reverse] at isEarlier
      obtain alike | mistaken := search_eq_of_key key files searchPath
      · rw [alike]
        exact .inl (isAnswer_search absolute)
      · exact .inr ⟨earlier, isEarlier, mistaken, isAnswer_search relative⟩

/-! The header `c` of the directory `a|b` is not there, but `b|c` of the directory `a` is. -/

/-- A directory with a file in it. -/
def barredFiles : FileSystem where
  entries := [([['a']], .directory), ([['a'], ['b', '|', 'c']], .file [])]

/-- The header that is there. -/
def presentQuestion : Question :=
  .header ['b', '|', 'c'] .quoted ['a', '/', 'm']

/-- The header that is missing. -/
def missingQuestion : Question :=
  .header ['c'] .quoted ['a', '|', 'b', '/', 'm']

/-- The missing header is answered with the one that was found before. -/
theorem isAnswer_ask_barred :
    let resolver : Resolver := { searchPath := [], cache := { capacity := 1, capacity_pos := Nat.one_pos } }
    let answer := ((resolver.askAll barredFiles [presentQuestion]).ask barredFiles missingQuestion).1
    ¬missingQuestion.IsAnswer barredFiles [] answer ∧ ∃ earlier ∈ [presentQuestion],
      earlier.MistakenFor missingQuestion ∧ earlier.IsAnswer barredFiles [] answer := by
  intro resolver answer
  have found : answer.isSome = true := by decide +kernel
  have wrong : ¬missingQuestion.IsAnswer barredFiles [] answer := by
    intro isAnswer
    have absent : ¬((IncludeForm.quoted = .quoted) ∧
        barredFiles.isReadable (Path.append (Path.parent ['a', '|', 'b', '/', 'm']) ['c']) = true) := by
      decide +kernel
    rw [IsAnswer, if_neg (by decide), missingQuestion, IsRelativeAnswer, if_neg absent] at isAnswer
    obtain ⟨header, isHeader⟩ := Option.isSome_iff_exists.mp found
    rw [isHeader] at isAnswer
    obtain ⟨i, inside, -⟩ := isAnswer
    exact absurd inside (Nat.not_lt_zero i)
  exact ⟨wrong, (isAnswer_ask barredFiles [] Nat.one_pos [presentQuestion] missingQuestion).resolve_left wrong⟩

end Resolver

end CPreprocessor
