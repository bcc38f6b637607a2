/-
# The chain and the index of a cache

A cache is linked if its index holds the key and the number of each cell of the chain, and nothing
else, where no two cells have the same key or the same number. Every operation leaves a linked cache
linked. Each can then be described by what it does to the list of entries, without the index and the
numbers of the cells.
-/
import CPreprocessor.Include.Cache
import Mathlib.Data.List.Nodup

namespace CPreprocessor

/-! ## Pairs with different keys -/

section Pairs

variable {α κ : Type} [DecidableEq κ]

/-- If no two items agree in `f`, an item is the only one with its `f`. -/
theorem filter_eq_singleton {f : α → κ} {items : List α} (distinct : (items.map f).Nodup) {item : α}
    (member : item ∈ items) : items.filter (fun other => f other = f item) = [item] := by
  induction items with
  | nil => cases member
  | cons first items ih =>
    rw [List.map_cons, List.nodup_cons] at distinct
    obtain ⟨absent, distinct⟩ := distinct
    cases List.mem_cons.mp member with
    | inl same =>
      subst same
      rw [List.filter_cons_of_pos (by simp), List.filter_eq_nil_iff.mpr]
      intro other later
      rw [decide_eq_true_eq]
      intro agree
      exact absent (agree ▸ List.mem_map_of_mem later)
    | inr later =>
      have differs : f first ≠ f item := fun agree => absent (agree ▸ List.mem_map_of_mem later)
      rw [List.filter_cons_of_neg (by simpa using differs), ih distinct later]

theorem lookup_eq_some_iff_mem {pairs : List (κ × α)} (distinct : (pairs.map Prod.fst).Nodup) {key : κ}
    {value : α} : pairs.lookup key = some value ↔ (key, value) ∈ pairs := by
  induction pairs with
  | nil => simp
  | cons first pairs ih =>
    obtain ⟨name, one⟩ := first
    rw [List.map_cons, List.nodup_cons] at distinct
    by_cases here : key = name
    · subst here
      have absent : (key, value) ∉ pairs := fun later => distinct.1 (List.mem_map.mpr ⟨_, later, rfl⟩)
      simp [absent, eq_comm]
    · have other : (key == name) = false := by simpa using here
      simp [List.lookup_cons, other, ih distinct.2, here]

theorem lookup_eq_none_iff_not_mem {pairs : List (κ × α)} {key : κ} :
    pairs.lookup key = none ↔ key ∉ pairs.map Prod.fst := by
  rw [List.lookup_eq_none_iff, List.mem_map]
  constructor
  · rintro differ ⟨pair, present, rfl⟩
    simpa using differ pair present
  · intro absent pair present
    rw [bne_iff_ne]
    exact fun same => absent ⟨pair, present, same.symm⟩

end Pairs

namespace Cell

variable {κ ν : Type} {cells : List (Cell κ ν)} {cell : Cell κ ν}

theorem map_fst_label (cells : List (Cell κ ν)) : (cells.map label).map Prod.fst = cells.map key := by
  rw [List.map_map]
  rfl

theorem map_fst_entry (cells : List (Cell κ ν)) : (cells.map entry).map Prod.fst = cells.map key := by
  rw [List.map_map]
  rfl

/-- Where cells differ in their keys and in their numbers, the cells with another number than a cell
are those with another key. -/
theorem remove_eq [DecidableEq κ] (keys : (cells.map key).Nodup) (numbers : (cells.map number).Nodup)
    (member : cell ∈ cells) : remove cells cell.number = cells.filter (·.key ≠ cell.key) := by
  apply List.filter_congr
  intro other present
  rw [decide_eq_decide, not_iff_not]
  constructor
  · intro same
    rw [List.inj_on_of_nodup_map numbers present member same]
  · intro same
    rw [List.inj_on_of_nodup_map keys present member same]

/-- A cell that is moved to the front stands before all others. -/
theorem toFront_eq (numbers : (cells.map number).Nodup) (member : cell ∈ cells) :
    toFront cells cell.number = cell :: remove cells cell.number := by
  rw [toFront, filter_eq_singleton numbers member]
  rfl

theorem toFront_perm (cells : List (Cell κ ν)) (number : Nat) : (toFront cells number).Perm cells := by
  have parts := List.filter_append_perm (fun cell : Cell κ ν => decide (cell.number = number)) cells
  simpa only [toFront, ne_eq, decide_not] using parts

theorem map_label_assign (cells : List (Cell κ ν)) (number : Nat) (value : ν) :
    (assign cells number value).map label = cells.map label := by
  rw [assign, List.map_map]
  apply List.map_congr_left
  intro cell _
  rw [Function.comp_apply]
  split <;> rfl

/-- Another value in a cell does not change the other cells. -/
theorem remove_assign (cells : List (Cell κ ν)) (number : Nat) (value : ν) :
    remove (assign cells number value) number = remove cells number := by
  induction cells with
  | nil => rfl
  | cons cell cells ih =>
    simp only [remove, assign, List.map_cons] at ih ⊢
    by_cases same : cell.number = number
    · rw [if_pos same, List.filter_cons_of_neg (by simpa using same),
        List.filter_cons_of_neg (by simpa using same), ih]
    · rw [if_neg same, List.filter_cons_of_pos (by simpa using same),
        List.filter_cons_of_pos (by simpa using same), ih]

end Cell

namespace Cache

variable {κ ν : Type} {cache : Cache κ ν} {key : κ}

/-- The index of a cache leads from each key of the chain to its only cell. -/
structure IsLinked (cache : Cache κ ν) : Prop where
  /-- No two cells have the same key. -/
  keys : (cache.cells.map Cell.key).Nodup
  /-- No two cells have the same number. -/
  numbers : (cache.cells.map Cell.number).Nodup
  /-- The number of the next cell is not in use. -/
  made : ∀ cell ∈ cache.cells, cell.number < cache.made
  /-- The index holds the label of each cell, and nothing else. -/
  index : cache.index.Perm (cache.cells.map Cell.label)
  /-- The chain is not longer than it may be. -/
  bounded : cache.cells.length ≤ cache.capacity

/-- An empty cache is linked. -/
theorem isLinked_empty {capacity : Nat} (positive : 0 < capacity) :
    IsLinked (κ := κ) (ν := ν) { capacity, capacity_pos := positive } :=
  ⟨.nil, .nil, nofun, .nil, Nat.zero_le _⟩

/-! ## What is counted -/

section Counts

variable [DecidableEq κ] (cache : Cache κ ν) (key : κ)

theorem counts_get :
    (cache.get key).2.capacity = cache.capacity ∧
      (cache.get key).2.hits + (cache.get key).2.misses = cache.hits + cache.misses + 1 := by
  unfold get
  split
  · exact ⟨rfl, Nat.succ_add _ _⟩
  · exact ⟨rfl, rfl⟩

/-- To give up an entry is no look-up. -/
theorem counts_makeRoom :
    cache.makeRoom.capacity = cache.capacity ∧ cache.makeRoom.hits = cache.hits ∧
      cache.makeRoom.misses = cache.misses := by
  unfold makeRoom
  split
  · unfold evict
    split <;> exact ⟨rfl, rfl, rfl⟩
  · exact ⟨rfl, rfl, rfl⟩

theorem counts_put (value : ν) :
    (cache.put key value).capacity = cache.capacity ∧ (cache.put key value).hits = cache.hits ∧
      (cache.put key value).misses = cache.misses := by
  unfold put
  split
  · exact ⟨rfl, rfl, rfl⟩
  · exact cache.counts_makeRoom

theorem counts_erase :
    (cache.erase key).capacity = cache.capacity ∧ (cache.erase key).hits = cache.hits ∧
      (cache.erase key).misses = cache.misses := by
  unfold erase
  split <;> exact ⟨rfl, rfl, rfl⟩

end Counts

namespace IsLinked

/-! ## What the index says -/

theorem index_keys (linked : cache.IsLinked) : (cache.index.map Prod.fst).Perm (cache.cells.map Cell.key) :=
  Cell.map_fst_label cache.cells ▸ linked.index.map Prod.fst

/-- The cells in another order, and other values in them, leave the cache linked. -/
theorem of_labels (linked : cache.IsLinked) {cells : List (Cell κ ν)}
    (same : (cells.map Cell.label).Perm (cache.cells.map Cell.label)) (hits : Nat) :
    IsLinked { cache with cells, hits } := by
  have numbers : (cells.map Cell.number).Perm (cache.cells.map Cell.number) := by
    have second := same.map Prod.snd
    rwa [List.map_map, List.map_map] at second
  refine ⟨?_, numbers.nodup_iff.mpr linked.numbers, ?_, linked.index.trans same.symm, ?_⟩
  · have first := same.map Prod.fst
    rw [Cell.map_fst_label, Cell.map_fst_label] at first
    exact first.nodup_iff.mpr linked.keys
  · intro cell member
    obtain ⟨old, present, number⟩ := List.mem_map.mp (numbers.subset (List.mem_map_of_mem member))
    exact number ▸ linked.made old present
  · have length := numbers.length_eq
    rw [List.length_map, List.length_map] at length
    exact length ▸ linked.bounded

/-- A part of the chain with its labels in the index is linked. -/
theorem of_sublist (linked : cache.IsLinked) {cells : List (Cell κ ν)} {index : List (κ × Nat)}
    (part : cells.Sublist cache.cells) (labels : index.Perm (cells.map Cell.label)) :
    IsLinked { cache with cells, index } :=
  ⟨(part.map _).nodup linked.keys, (part.map _).nodup linked.numbers,
    fun cell member => linked.made cell (part.subset member), labels,
    Nat.le_trans part.length_le linked.bounded⟩

theorem length_entries_le (linked : cache.IsLinked) : cache.entries.length ≤ cache.capacity := by
  rw [entries, List.length_map]
  exact linked.bounded

/-- All entries go. -/
theorem clear (linked : cache.IsLinked) : cache.clear.IsLinked :=
  linked.of_sublist (List.nil_sublist _) .nil

variable [DecidableEq κ]

/-- The index leads to a cell of the key, or there is none. -/
theorem lookup_cases (linked : cache.IsLinked) (key : κ) :
    (∃ cell ∈ cache.cells, cell.key = key ∧ cache.index.lookup key = some cell.number) ∨
      (key ∉ cache.cells.map Cell.key ∧ cache.index.lookup key = none) := by
  cases found : cache.index.lookup key with
  | none =>
    right
    rw [lookup_eq_none_iff_not_mem, linked.index_keys.mem_iff] at found
    exact ⟨found, rfl⟩
  | some number =>
    left
    have distinct := linked.index_keys.nodup_iff.mpr linked.keys
    have listed := linked.index.mem_iff.mp ((lookup_eq_some_iff_mem distinct).mp found)
    obtain ⟨cell, member, same⟩ := List.mem_map.mp listed
    cases same
    exact ⟨cell, member, rfl, rfl⟩

/-- The index without a key holds the labels of the other cells. -/
theorem index_others (linked : cache.IsLinked) (key : κ) :
    (others cache.index key).Perm ((cache.cells.filter (·.key ≠ key)).map Cell.label) := by
  have kept := linked.index.filter fun pair => decide (pair.1 ≠ key)
  rwa [List.filter_map] at kept

/-! ## Looking up -/

/-- A key has an entry exactly if it is one of the chain. -/
theorem contains_eq (linked : cache.IsLinked) (key : κ) :
    cache.contains key = cache.entries.any (·.1 = key) := by
  have keys : cache.entries.any (·.1 = key) = decide (key ∈ cache.cells.map Cell.key) := by
    rw [entries, List.any_map, Bool.eq_iff_iff, List.any_eq_true, decide_eq_true_eq, List.mem_map]
    exact exists_congr fun cell => and_congr_right fun _ => decide_eq_true_iff
  rw [keys, contains]
  obtain ⟨cell, member, rfl, found⟩ | ⟨absent, missing⟩ := linked.lookup_cases key
  · rw [found, decide_eq_true (List.mem_map_of_mem member)]
    rfl
  · rw [missing, decide_eq_false absent]
    rfl

theorem lookup_entries (linked : cache.IsLinked) {cell : Cell κ ν} (member : cell ∈ cache.cells) :
    cache.entries.lookup cell.key = some cell.value := by
  have distinct : (cache.entries.map Prod.fst).Nodup := by
    rw [entries, Cell.map_fst_entry]
    exact linked.keys
  exact (lookup_eq_some_iff_mem distinct).mpr (List.mem_map_of_mem member)

theorem lookup_entries_eq_none (absent : key ∉ cache.cells.map Cell.key) :
    cache.entries.lookup key = none := by
  rw [lookup_eq_none_iff_not_mem, entries, Cell.map_fst_entry]
  exact absent

theorem others_entries_of_not_mem (absent : key ∉ cache.cells.map Cell.key) :
    others cache.entries key = cache.entries := by
  apply List.filter_eq_self.mpr
  intro pair present
  rw [decide_eq_true_eq]
  rintro rfl
  rw [← Cell.map_fst_entry] at absent
  exact absent (List.mem_map_of_mem present)

theorem entries_remove (linked : cache.IsLinked) {cell : Cell κ ν} (member : cell ∈ cache.cells) :
    (Cell.remove cache.cells cell.number).map Cell.entry = others cache.entries cell.key := by
  rw [Cell.remove_eq linked.keys linked.numbers member, others, entries, List.filter_map]
  rfl

/-- The value is that of the entry, which comes to the front if there is one. -/
theorem get (linked : cache.IsLinked) (key : κ) :
    (cache.get key).2.IsLinked ∧
      ((cache.get key).1, (cache.get key).2.entries) =
        (match cache.entries.lookup key with
          | some value => (some value, (key, value) :: others cache.entries key)
          | none => (none, cache.entries)) := by
  unfold Cache.get
  obtain ⟨cell, member, rfl, found⟩ | ⟨absent, missing⟩ := linked.lookup_cases key
  · have value : (cache.cells.find? (·.number = cell.number)).map Cell.value = some cell.value := by
      rw [← List.head?_filter, filter_eq_singleton linked.numbers member]
      rfl
    have moved : (Cell.toFront cache.cells cell.number).map Cell.entry =
        (cell.key, cell.value) :: others cache.entries cell.key := by
      rw [Cell.toFront_eq linked.numbers member, List.map_cons, linked.entries_remove member]
      rfl
    rw [found, linked.lookup_entries member]
    exact ⟨linked.of_labels ((Cell.toFront_perm _ _).map _) _, Prod.ext value moved⟩
  · rw [missing, lookup_entries_eq_none absent]
    exact ⟨⟨linked.keys, linked.numbers, linked.made, linked.index, linked.bounded⟩, rfl⟩

/-! ## Changing entries -/

/-- The last entry is given up. -/
theorem evict (linked : cache.IsLinked) :
    cache.evict.IsLinked ∧ cache.evict.entries = cache.entries.dropLast ∧
      cache.evict.cells = cache.cells.dropLast := by
  unfold Cache.evict
  cases last : cache.cells.getLast? with
  | none =>
    have nothing := List.getLast?_eq_none_iff.mp last
    refine ⟨linked, ?_, ?_⟩
    · rw [entries, nothing]
      rfl
    · rw [nothing]
      rfl
  | some cell =>
    obtain ⟨before, split⟩ := List.getLast?_eq_some_iff.mp last
    have init : cache.cells.dropLast = before := by rw [split, List.dropLast_concat]
    have distinct := linked.keys
    rw [split, List.map_append, List.map_singleton, List.nodup_append] at distinct
    have kept : cache.cells.filter (·.key ≠ cell.key) = before := by
      rw [split, List.filter_append, List.filter_cons_of_neg (by simp), List.filter_nil, List.append_nil,
        List.filter_eq_self]
      intro other present
      have differs := distinct.2.2 _ (List.mem_map_of_mem present) _ (List.mem_singleton_self _)
      simpa using differs
    refine ⟨linked.of_sublist (List.dropLast_sublist _) ?_, ?_, rfl⟩
    · rw [init, ← kept]
      exact linked.index_others cell.key
    · rw [entries, entries, List.map_dropLast]

/-- A new entry comes to the front. -/
theorem insert (linked : cache.IsLinked) (absent : key ∉ cache.cells.map Cell.key)
    (room : cache.cells.length < cache.capacity) (value : ν) :
    (cache.insert key value).IsLinked ∧
      (cache.insert key value).entries = (key, value) :: cache.entries := by
  have unused : cache.made ∉ cache.cells.map Cell.number := by
    intro used
    obtain ⟨cell, member, number⟩ := List.mem_map.mp used
    exact absurd (linked.made cell member) (by omega)
  refine ⟨⟨?_, ?_, ?_, ?_, room⟩, rfl⟩
  · exact List.nodup_cons.mpr ⟨absent, linked.keys⟩
  · exact List.nodup_cons.mpr ⟨unused, linked.numbers⟩
  · intro cell member
    cases List.mem_cons.mp member with
    | inl new => exact new ▸ Nat.lt_succ_self _
    | inr old => exact Nat.lt_succ_of_lt (linked.made cell old)
  · have all : cache.cells.filter (·.key ≠ key) = cache.cells := by
      apply List.filter_eq_self.mpr
      intro cell member
      rw [decide_eq_true_eq]
      rintro rfl
      exact absent (List.mem_map_of_mem member)
    have labels := linked.index_others key
    rw [all] at labels
    exact labels.cons _

/-- At most the last entry is given up. -/
theorem makeRoom (linked : cache.IsLinked) :
    cache.makeRoom.IsLinked ∧ cache.makeRoom.entries = cache.entries.take (cache.capacity - 1) ∧
      cache.makeRoom.cells.Sublist cache.cells ∧
      cache.makeRoom.cells.length < cache.makeRoom.capacity := by
  rw [cache.counts_makeRoom.1]
  have positive := cache.capacity_pos
  have bounded := linked.bounded
  unfold Cache.makeRoom
  split
  · rename_i full
    obtain ⟨after, entries, cells⟩ := linked.evict
    refine ⟨after, ?_, cells ▸ List.dropLast_sublist _, ?_⟩
    · rw [entries, List.dropLast_eq_take, Cache.entries, List.length_map]
      congr 1
      omega
    · rw [cells, List.length_dropLast]
      omega
  · rename_i spare
    refine ⟨linked, ?_, List.Sublist.refl _, by omega⟩
    rw [List.take_of_length_le]
    rw [entries, List.length_map]
    omega

/-- The new value comes to the front and the old one of the key goes. If there are too many entries
then, the last one goes too. -/
theorem put (linked : cache.IsLinked) (key : κ) (value : ν) :
    (cache.put key value).IsLinked ∧
      (cache.put key value).entries = ((key, value) :: others cache.entries key).take cache.capacity := by
  unfold Cache.put
  obtain ⟨cell, member, rfl, found⟩ | ⟨absent, missing⟩ := linked.lookup_cases key
  · rw [found]
    have labels := Cell.map_label_assign cache.cells cell.number value
    have after : IsLinked { cache with cells := Cell.assign cache.cells cell.number value } :=
      linked.of_labels (labels ▸ List.Perm.refl _) cache.hits
    have member' : { cell with value } ∈ Cell.assign cache.cells cell.number value :=
      List.mem_map.mpr ⟨cell, member, if_pos rfl⟩
    have moved := after.of_labels ((Cell.toFront_perm _ cell.number).map _) cache.hits
    have length := moved.length_entries_le
    have entries : (Cell.toFront (Cell.assign cache.cells cell.number value) cell.number).map Cell.entry =
        (cell.key, value) :: others cache.entries cell.key := by
      rw [Cell.toFront_eq after.numbers member', Cell.remove_assign, List.map_cons,
        linked.entries_remove member]
      rfl
    refine ⟨moved, ?_⟩
    rw [← entries]
    exact (List.take_of_length_le length).symm
  · rw [missing]
    obtain ⟨kept, entries, part, room⟩ := linked.makeRoom
    have absent' : key ∉ cache.makeRoom.cells.map Cell.key := fun there =>
      absent ((part.map _).subset there)
    obtain ⟨after, entries'⟩ := kept.insert absent' room value
    refine ⟨after, ?_⟩
    simp only []
    rw [entries', entries, others_entries_of_not_mem absent]
    obtain ⟨n, same⟩ := Nat.exists_eq_succ_of_ne_zero (Nat.ne_of_gt cache.capacity_pos)
    rw [same, List.take_succ_cons, Nat.succ_sub_one]

/-- The entry of the key goes. -/
theorem erase (linked : cache.IsLinked) (key : κ) :
    (cache.erase key).IsLinked ∧ (cache.erase key).entries = others cache.entries key := by
  unfold Cache.erase
  obtain ⟨cell, member, rfl, found⟩ | ⟨absent, missing⟩ := linked.lookup_cases key
  · rw [found]
    refine ⟨linked.of_sublist List.filter_sublist ?_, linked.entries_remove member⟩
    have labels := linked.index_others cell.key
    rwa [← Cell.remove_eq linked.keys linked.numbers member] at labels
  · rw [missing]
    exact ⟨linked, (others_entries_of_not_mem absent).symm⟩

end IsLinked

end Cache

end CPreprocessor
