/-
# Locations and canonical paths

What a path leads to stands at a location, which the canonical path of a file spells
out (`canonical_of_found`). Names of locations hold no slash, so different locations are
spelled differently, and files with the same canonical path hold the same source
(`source_eq_of_canonical`).
-/
import CPreprocessor.Include.FileSystem
import Mathlib.Tactic.SplitIfs

namespace CPreprocessor

namespace Path

/-- A name that can stand between slashes. -/
def IsProperName (name : Text) : Prop :=
  name ≠ [] ∧ '/' ∉ name

theorem parts_cons_of_ne {c : Char} (other : c ≠ '/') (rest : Text) :
    ∃ part more, parts rest = part :: more ∧ parts (c :: rest) = (c :: part) :: more := by
  cases split : parts rest with
  | nil =>
    cases rest with
    | nil => cases split
    | cons d rest =>
      simp only [parts] at split
      split at split
      · cases split
      · split at split <;> cases split
  | cons part more => exact ⟨part, more, rfl, by simp only [parts, if_neg other, split]⟩

theorem slash_notMem_of_mem_parts (path : Text) : ∀ part ∈ parts path, '/' ∉ part := by
  induction path with
  | nil => simp [parts]
  | cons c rest ih =>
    by_cases isSlash : c = '/'
    · intro part member
      simp only [parts, if_pos isSlash, List.mem_cons] at member
      obtain rfl | member := member
      · exact List.not_mem_nil
      · exact ih part member
    · obtain ⟨first, more, split, joined⟩ := parts_cons_of_ne isSlash rest
      rw [joined]
      rw [split] at ih
      intro part member
      obtain rfl | member := List.mem_cons.mp member
      · rw [List.mem_cons, not_or]
        exact ⟨Ne.symm isSlash, ih first List.mem_cons_self⟩
      · exact ih part (List.mem_cons_of_mem _ member)

theorem isProperName_of_mem_names {path name : Text} (member : name ∈ names path) :
    IsProperName name := by
  obtain ⟨isPart, nonempty⟩ := List.mem_filter.mp member
  exact ⟨by simpa using nonempty, slash_notMem_of_mem_parts path name isPart⟩

theorem parts_of_notMem {name : Text} (noSlash : '/' ∉ name) : parts name = [name] := by
  induction name with
  | nil => rfl
  | cons c rest ih =>
    rw [List.mem_cons, not_or] at noSlash
    simp only [parts, if_neg (Ne.symm noSlash.1), ih noSlash.2]

/-- A slash ends a part. -/
theorem parts_append {name : Text} (noSlash : '/' ∉ name) (rest : Text) :
    parts (name ++ '/' :: rest) = name :: parts rest := by
  induction name with
  | nil => rfl
  | cons c name ih =>
    rw [List.mem_cons, not_or] at noSlash
    simp only [List.cons_append, parts, if_neg (Ne.symm noSlash.1), ih noSlash.2]

/-- The names between the slashes are read back. -/
theorem names_joined {list : List Text} (proper : ∀ name ∈ list, IsProperName name) :
    names (joined list) = list := by
  induction list with
  | nil => rfl
  | cons name rest ih =>
    have first := proper name List.mem_cons_self
    have others := ih fun name member => proper name (List.mem_cons_of_mem _ member)
    have kept : (name ≠ []) = True := eq_true first.1
    cases rest with
    | nil => simp only [names, joined, List.intercalate_singleton, parts_of_notMem first.2,
        List.filter_cons, kept, decide_true, if_true, List.filter_nil]
    | cons second more =>
      have spelled : joined (name :: second :: more) = name ++ '/' :: joined (second :: more) := by
        simp only [joined, List.intercalate_cons_cons, List.append_assoc, List.singleton_append]
      rw [spelled]
      simp only [names] at others
      simp only [names, parts_append first.2, List.filter_cons, kept, decide_true, if_true, others]

end Path

namespace FileSystem

/-- The working directory is a location that can be spelled out. -/
def IsProper (files : FileSystem) : Prop :=
  ∀ name ∈ files.workingDirectory, Path.IsProperName name

variable {files : FileSystem}

/-- What a path leads to stands at the location it leads to, whose names come from the start and from
the path. -/
theorem follow_found {start : List Text} {names : List Text} {location : List Text} {entry : Entry}
    (found : files.follow start names = .found location entry)
    (proper : ∀ name ∈ start, Path.IsProperName name)
    (properNames : ∀ name ∈ names, Path.IsProperName name) :
    files.at? location = some entry ∧ ∀ name ∈ location, Path.IsProperName name := by
  induction names generalizing start with
  | nil =>
    simp only [follow] at found
    split at found
    · rename_i here
      cases found
      exact ⟨here, proper⟩
    · cases found
  | cons name rest ih =>
    have others := fun name member => properNames name (List.mem_cons_of_mem _ member)
    simp only [follow] at found
    split at found
    · split_ifs at found
      · exact ih found proper others
      · exact ih found (fun name member => proper name (List.dropLast_subset _ member)) others
      · split at found
        · refine ih found ?_ others
          intro other member
          obtain member | member := List.mem_append.mp member
          · exact proper other member
          · rw [List.mem_singleton.mp member]
            exact properNames name List.mem_cons_self
        · cases found
    · cases found

theorem find_found (isProper : files.IsProper) {path : Text} {location : List Text} {entry : Entry}
    (found : files.find path = .found location entry) :
    files.at? location = some entry ∧ ∀ name ∈ location, Path.IsProperName name := by
  simp only [find] at found
  split at found
  · cases found
  · split at found
    · cases found
    · apply follow_found found
      · intro name member
        split at member
        · cases member
        · exact isProper name member
      · intro name member
        obtain member | member := List.mem_append.mp member
        · exact Path.isProperName_of_mem_names member
        · split at member
          · rw [List.mem_singleton.mp member]
            exact ⟨by decide, by decide⟩
          · cases member

/-- The canonical path of what a path leads to spells out its location. -/
theorem canonical_of_found {path : Text} {location : List Text} {entry : Entry}
    (found : files.find path = .found location entry) :
    files.canonical path = absolutePath location := by
  simp only [canonical, found]

/-- Different locations are spelled differently. -/
theorem absolutePath_inj {location location' : List Text}
    (proper : ∀ name ∈ location, Path.IsProperName name)
    (proper' : ∀ name ∈ location', Path.IsProperName name)
    (same : absolutePath location = absolutePath location') : location = location' := by
  have joined := List.tail_eq_of_cons_eq same
  rw [← Path.names_joined proper, joined, Path.names_joined proper']

/-- A source is read from a file that the path leads to. -/
theorem exists_found_of_readSource {path : Text} {trigraphs : Bool} {source : Source}
    (read : files.readSource path trigraphs = .ok source) :
    ∃ location content, files.find path = .found location (.file content)
      ∧ Source.ofBytes content path trigraphs = .ok source := by
  simp only [readSource, FileSystem.read] at read
  cases found : files.find path with
  | found location entry =>
    cases entry with
    | directory => rw [found] at read; cases read
    | file content =>
      rw [found] at read
      exact ⟨location, content, rfl, read⟩
  | missing => rw [found] at read; cases read
  | tooLong => rw [found] at read; cases read

/-- Files with the same canonical path hold the same source. -/
theorem source_eq_of_canonical (isProper : files.IsProper) {path path' : Text} {trigraphs : Bool}
    {source source' : Source} (read : files.readSource path trigraphs = .ok source)
    (read' : files.readSource path' trigraphs = .ok source')
    (same : files.canonical path = files.canonical path') : source = source' := by
  obtain ⟨location, content, found, decoded⟩ := exists_found_of_readSource read
  obtain ⟨location', content', found', decoded'⟩ := exists_found_of_readSource read'
  obtain ⟨stands, proper⟩ := find_found isProper found
  obtain ⟨stands', proper'⟩ := find_found isProper found'
  rw [canonical_of_found found, canonical_of_found found'] at same
  obtain rfl := absolutePath_inj proper proper' same
  obtain rfl : content = content' := by
    rw [stands, Option.some.injEq, Entry.file.injEq] at stands'
    exact stands'
  unfold Source.ofBytes at decoded decoded'
  cases text : Encoding.decode content with
  | error cause => rw [text] at decoded; cases decoded
  | ok decodedText =>
    rw [text] at decoded decoded'
    exact Except.ok.inj (decoded.symm.trans decoded')

end FileSystem

end CPreprocessor
