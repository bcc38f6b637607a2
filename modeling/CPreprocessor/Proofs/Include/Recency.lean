/-
# Entries in the order of their last use

Whatever is asked of a cache, its chain and its index stay in step, and it answers as one list of
entries does that is kept in the order of their last use (`Cache.answerFrom`). As long as nothing is
erased, this order needs no cache to be told: the entries are those of the keys that were used last,
as many as there is room for, each with the value that was put last (`Cache.perform_empty?`).
-/
import CPreprocessor.Proofs.Include.Linkage

namespace CPreprocessor

/-! ## Lists without what is repeated -/

section Distinct

variable {κ : Type} [DecidableEq κ]

theorem eraseDups_filter (p : κ → Bool) (keys : List κ) :
    (keys.filter p).eraseDups = keys.eraseDups.filter p := by
  induction size : keys.length using Nat.strongRecOn generalizing keys with
  | ind n ih =>
    subst size
    cases keys with
    | nil => rfl
    | cons key keys =>
      have shorter (q : κ → Bool) : (keys.filter q).length < (key :: keys).length :=
        Nat.lt_succ_of_le (List.length_filter_le q keys)
      have later := ih _ (shorter fun other => !other == key) _ rfl
      rw [List.eraseDups_cons]
      cases holds : p key with
      | true =>
        rw [List.filter_cons_of_pos holds, List.filter_cons_of_pos holds, List.eraseDups_cons,
          List.filter_filter, ← later, List.filter_filter]
        simp only [Bool.and_comm]
      | false =>
        rw [List.filter_cons_of_neg (by simp [holds]), List.filter_cons_of_neg (by simp [holds]), ← later,
          List.filter_filter]
        congr 1
        apply List.filter_congr
        intro other _
        by_cases same : other = key
        · simp [same, holds]
        · simp [same]

theorem eraseDups_cons_eq (key : κ) (keys : List κ) :
    (key :: keys).eraseDups = key :: keys.eraseDups.filter (· ≠ key) := by
  rw [List.eraseDups_cons, eraseDups_filter]
  simp only [beq_eq_decide, ne_eq, decide_not]

theorem nodup_eraseDups (keys : List κ) : keys.eraseDups.Nodup := by
  induction keys with
  | nil => exact .nil
  | cons key keys ih =>
    rw [eraseDups_cons_eq, List.nodup_cons]
    exact ⟨fun there => by simpa using List.of_mem_filter there, ih.filter _⟩

/-- Where one item at most is left out, the first items that are kept are among one more of all. -/
theorem take_filter_take {items : List κ} (distinct : items.Nodup) (key : κ) (n : Nat) :
    ((items.take (n + 1)).filter (· ≠ key)).take n = (items.filter (· ≠ key)).take n := by
  induction items generalizing n with
  | nil => simp
  | cons item items ih =>
    rw [List.nodup_cons] at distinct
    rw [List.take_succ_cons]
    by_cases same : item = key
    · subst same
      have others : items.filter (· ≠ item) = items := by
        apply List.filter_eq_self.mpr
        intro other later
        rw [decide_eq_true_eq]
        rintro rfl
        exact distinct.1 later
      have first : (items.take n).filter (· ≠ item) = items.take n := by
        apply List.filter_eq_self.mpr
        intro other early
        rw [decide_eq_true_eq]
        rintro rfl
        exact distinct.1 (List.mem_of_mem_take early)
      rw [List.filter_cons_of_neg (by simp), List.filter_cons_of_neg (by simp), others, first,
        List.take_take, Nat.min_self]
    · rw [List.filter_cons_of_pos (by simpa using same), List.filter_cons_of_pos (by simpa using same)]
      cases n with
      | zero => rfl
      | succ n => rw [List.take_succ_cons, List.take_succ_cons, ih distinct.2]

end Distinct

namespace Cache

/-! ## Requests -/

/-- What can be asked of a cache. -/
inductive Request (κ ν : Type) where
  | put (key : κ) (value : ν)
  | get (key : κ)
  | contains (key : κ)
  | erase (key : κ)
  | clear
  deriving DecidableEq, Repr

/-- What a cache answers. -/
inductive Answer (ν : Type) where
  | done
  | value (found : Option ν)
  | presence (present : Bool)
  deriving DecidableEq, Repr

namespace Request

variable {κ ν : Type}

/-- The request looks for the value of a key. -/
def isGet : Request κ ν → Bool
  | .get _ => true
  | _ => false

/-- The request removes an entry from the cache, or all of them. -/
def isRemoval : Request κ ν → Bool
  | .erase _ => true
  | .clear => true
  | _ => false

/-- The key that a request uses: a key is used when a value is put, and when one is found. -/
def used? : Request κ ν → Answer ν → Option κ
  | .put key _, _ => some key
  | .get key, .value (some _) => some key
  | _, _ => none

variable [DecidableEq κ]

/-- The value that the request puts for a key. -/
def value? (key : κ) : Request κ ν → Option ν
  | .put other value => if other = key then some value else none
  | _ => none

/-- The value that was put last for a key. -/
def lastValue? (key : κ) (requests : List (Request κ ν)) : Option ν :=
  requests.reverse.findSome? (value? key)

theorem lastValue?_concat (key : κ) (requests : List (Request κ ν)) (request : Request κ ν) :
    lastValue? key (requests ++ [request]) =
      (request.value? key).or (lastValue? key requests) := by
  rw [lastValue?, List.reverse_append, List.reverse_singleton, List.singleton_append, List.findSome?_cons]
  cases request.value? key <;> rfl

end Request

variable {κ ν : Type} [DecidableEq κ]

/-- Answer a request. -/
def answer (cache : Cache κ ν) : Request κ ν → Answer ν × Cache κ ν
  | .put key value => (.done, cache.put key value)
  | .get key => (.value (cache.get key).1, (cache.get key).2)
  | .contains key => (.presence (cache.contains key), cache)
  | .erase key => (.done, cache.erase key)
  | .clear => (.done, cache.clear)

/-- The answers to some requests, one after the other, and the cache after them. -/
def perform (cache : Cache κ ν) : List (Request κ ν) → List (Answer ν) × Cache κ ν
  | [] => ([], cache)
  | request :: requests =>
    ((cache.answer request).1 :: ((cache.answer request).2.perform requests).1,
      ((cache.answer request).2.perform requests).2)

/-- The answer of a list of entries, the one used last first, with room for `capacity` of them. -/
def answerFrom (capacity : Nat) (entries : List (κ × ν)) : Request κ ν → Answer ν × List (κ × ν)
  | .put key value => (.done, ((key, value) :: entries.filter (·.1 ≠ key)).take capacity)
  | .get key =>
    match entries.lookup key with
    | some value => (.value (some value), (key, value) :: entries.filter (·.1 ≠ key))
    | none => (.value none, entries)
  | .contains key => (.presence (entries.any (·.1 = key)), entries)
  | .erase key => (.done, entries.filter (·.1 ≠ key))
  | .clear => (.done, [])

/-- The answers of a list of entries to some requests, and the list after them. -/
def performFrom (capacity : Nat) (entries : List (κ × ν)) :
    List (Request κ ν) → List (Answer ν) × List (κ × ν)
  | [] => ([], entries)
  | request :: requests =>
    ((answerFrom capacity entries request).1 ::
        (performFrom capacity (answerFrom capacity entries request).2 requests).1,
      (performFrom capacity (answerFrom capacity entries request).2 requests).2)

/-- The keys that some requests use, in order. -/
def uses : List (Request κ ν) → List (Answer ν) → List κ
  | request :: requests, answer :: answers =>
    (request.used? answer).toList ++ uses requests answers
  | _, _ => []

/-! ## The cache as one list -/

variable {cache : Cache κ ν}

/-- Each look-up is counted, and nothing else. -/
theorem counts_answer (cache : Cache κ ν) (request : Request κ ν) :
    (cache.answer request).2.capacity = cache.capacity ∧
      (cache.answer request).2.hits + (cache.answer request).2.misses =
        cache.hits + cache.misses + if request.isGet then 1 else 0 := by
  cases request with
  | put key value =>
    obtain ⟨capacity, hits, misses⟩ := cache.counts_put key value
    have counted := congrArg₂ (· + ·) hits misses
    exact ⟨capacity, counted⟩
  | get key => exact cache.counts_get key
  | contains key => exact ⟨rfl, rfl⟩
  | erase key =>
    obtain ⟨capacity, hits, misses⟩ := cache.counts_erase key
    have counted := congrArg₂ (· + ·) hits misses
    exact ⟨capacity, counted⟩
  | clear => exact ⟨rfl, rfl⟩

/-- A linked cache stays linked and answers as its list of entries does. -/
theorem IsLinked.answer (linked : cache.IsLinked) (request : Request κ ν) :
    (cache.answer request).2.IsLinked ∧
      ((cache.answer request).1, (cache.answer request).2.entries) =
        answerFrom cache.capacity cache.entries request := by
  cases request with
  | put key value =>
    obtain ⟨after, entries⟩ := linked.put key value
    exact ⟨after, Prod.ext rfl entries⟩
  | get key =>
    obtain ⟨after, given⟩ := linked.get key
    refine ⟨after, ?_⟩
    rw [answerFrom]
    cases found : cache.entries.lookup key with
    | some value =>
      rw [found] at given
      obtain ⟨value, entries⟩ := Prod.mk.inj given
      exact Prod.ext (congrArg Answer.value value) entries
    | none =>
      rw [found] at given
      obtain ⟨value, entries⟩ := Prod.mk.inj given
      exact Prod.ext (congrArg Answer.value value) entries
  | contains key => exact ⟨linked, Prod.ext (congrArg Answer.presence (linked.contains_eq key)) rfl⟩
  | erase key =>
    obtain ⟨after, entries⟩ := linked.erase key
    exact ⟨after, Prod.ext rfl entries⟩
  | clear => exact ⟨linked.clear, rfl⟩

/-- So do the caches after any requests. -/
theorem IsLinked.perform (linked : cache.IsLinked) (requests : List (Request κ ν)) :
    (cache.perform requests).2.IsLinked ∧
      ((cache.perform requests).1, (cache.perform requests).2.entries) =
        performFrom cache.capacity cache.entries requests ∧
      (cache.perform requests).2.capacity = cache.capacity ∧
      (cache.perform requests).2.hits + (cache.perform requests).2.misses =
        cache.hits + cache.misses + requests.countP Request.isGet := by
  induction requests generalizing cache with
  | nil => exact ⟨linked, rfl, rfl, rfl⟩
  | cons request requests ih =>
    obtain ⟨linked', given⟩ := linked.answer request
    obtain ⟨capacity, counted⟩ := cache.counts_answer request
    obtain ⟨linked'', given', capacity', counted'⟩ := ih linked'
    obtain ⟨one, entries⟩ := Prod.mk.inj given
    rw [capacity, entries] at given'
    obtain ⟨more, entries'⟩ := Prod.mk.inj given'
    refine ⟨linked'', ?_, capacity'.trans capacity, ?_⟩
    · exact Prod.ext (congrArg₂ List.cons one more) entries'
    · rw [Cache.perform, counted', counted, List.countP_cons]
      omega

/-! ## The entries that were used last -/

/-- The entries are those of the keys that were used last, with the values that were put last. -/
structure AreRecent (capacity : Nat) (entries : List (κ × ν)) (used : List κ)
    (requests : List (Request κ ν)) : Prop where
  keys : entries.map Prod.fst = used.reverse.eraseDups.take capacity
  values : ∀ entry ∈ entries, Request.lastValue? entry.1 requests = some entry.2

namespace AreRecent

variable {capacity : Nat} {entries : List (κ × ν)} {used : List κ} {requests : List (Request κ ν)}

theorem map_fst_filter (entries : List (κ × ν)) (key : κ) :
    (entries.filter (·.1 ≠ key)).map Prod.fst = (entries.map Prod.fst).filter (· ≠ key) := by
  rw [List.filter_map]
  rfl

/-- A key that is used comes to the front, and the last key goes if there are too many. -/
theorem use (recent : AreRecent capacity entries used requests) (positive : 0 < capacity) (key : κ) :
    (key :: (entries.map Prod.fst).filter (· ≠ key)).take capacity =
      (used ++ [key]).reverse.eraseDups.take capacity := by
  obtain ⟨n, rfl⟩ := Nat.exists_eq_succ_of_ne_zero (Nat.ne_of_gt positive)
  rw [List.reverse_append, List.reverse_singleton, List.singleton_append, eraseDups_cons_eq, recent.keys,
    List.take_succ_cons, List.take_succ_cons, take_filter_take (nodup_eraseDups _)]

/-- A request that removes nothing leaves the entries recent. -/
theorem answer (recent : AreRecent capacity entries used requests) (positive : 0 < capacity)
    {request : Request κ ν} (keeps : request.isRemoval = false) :
    AreRecent capacity (answerFrom capacity entries request).2
      (used ++ (request.used? (answerFrom capacity entries request).1).toList)
      (requests ++ [request]) := by
  cases request with
  | put key value =>
    refine ⟨?_, ?_⟩
    · rw [answerFrom, List.map_take, List.map_cons, map_fst_filter]
      exact recent.use positive key
    · intro entry present
      rw [Request.lastValue?_concat, Request.value?]
      cases List.mem_cons.mp (List.mem_of_mem_take present) with
      | inl new =>
        rw [new, if_pos rfl]
        rfl
      | inr old =>
        have differs : key ≠ entry.1 := fun same => by simpa [same] using List.of_mem_filter old
        rw [if_neg differs]
        exact recent.values entry (List.mem_of_mem_filter old)
  | get key =>
    have values : ∀ entry ∈ entries,
        Request.lastValue? entry.1 (requests ++ [.get key]) = some entry.2 := by
      intro entry present
      rw [Request.lastValue?_concat]
      exact recent.values entry present
    cases found : entries.lookup key with
    | none =>
      simp only [answerFrom, found]
      exact ⟨by simpa [Request.used?] using recent.keys, values⟩
    | some value =>
      simp only [answerFrom, found]
      have distinct : (entries.map Prod.fst).Nodup :=
        recent.keys ▸ (nodup_eraseDups _).sublist (List.take_sublist _ _)
      have member := (lookup_eq_some_iff_mem distinct).mp found
      have fits : (key :: (entries.map Prod.fst).filter (· ≠ key)).length ≤ capacity := by
        have fewer : ((entries.map Prod.fst).filter (· ≠ key)).length < (entries.map Prod.fst).length :=
          List.length_filter_lt_length_iff_exists.mpr ⟨key, List.mem_map_of_mem member, by simp⟩
        have bounded := congrArg List.length recent.keys
        rw [List.length_take] at bounded
        rw [List.length_cons]
        omega
      refine ⟨?_, ?_⟩
      · rw [List.map_cons, map_fst_filter, ← List.take_of_length_le fits]
        exact recent.use positive key
      · intro entry present
        cases List.mem_cons.mp present with
        | inl first => exact first ▸ values _ member
        | inr old => exact values entry (List.mem_of_mem_filter old)
  | contains key =>
    refine ⟨by simpa [Request.used?, answerFrom] using recent.keys, ?_⟩
    intro entry present
    rw [Request.lastValue?_concat]
    exact recent.values entry present
  | erase key => cases keeps
  | clear => cases keeps

/-- So do any requests that remove nothing. -/
theorem perform (recent : AreRecent capacity entries used requests) (positive : 0 < capacity)
    {more : List (Request κ ν)} (keep : ∀ request ∈ more, request.isRemoval = false) :
    AreRecent capacity (performFrom capacity entries more).2
      (used ++ uses more (performFrom capacity entries more).1) (requests ++ more) := by
  induction more generalizing entries used requests with
  | nil => simpa [performFrom, uses] using recent
  | cons request more ih =>
    obtain ⟨keeps, later⟩ := List.forall_mem_cons.mp keep
    have after := ih (recent.answer positive keeps) later
    rw [List.append_assoc, List.append_assoc] at after
    exact after

end AreRecent

/-- As long as nothing is removed from an empty list, its entries are those of the keys that were used
last, each with the value that was put last. -/
theorem map_performFrom {capacity : Nat} (positive : 0 < capacity) {requests : List (Request κ ν)}
    (keep : ∀ request ∈ requests, request.isRemoval = false) :
    (performFrom capacity [] requests).2.map (fun entry => (entry.1, some entry.2)) =
      ((uses requests (performFrom capacity [] requests).1).reverse.eraseDups.take capacity).map
        fun key => (key, Request.lastValue? key requests) := by
  have nothing : AreRecent capacity ([] : List (κ × ν)) [] [] := ⟨by simp, nofun⟩
  have recent := nothing.perform positive keep
  rw [List.nil_append, List.nil_append] at recent
  rw [← recent.keys, List.map_map]
  apply List.map_congr_left
  intro entry present
  rw [Function.comp_apply, recent.values entry present]

/-- After any requests the chain and the index hold the same keys, each once and no more than there is
room for; the answers and the entries are those of one list in the order of last use, and every look-up
has been counted. If nothing was removed, the entries are those of the keys that were used last, each
with the value that was put last. -/
theorem perform_empty? {capacity : Nat} (positive : 0 < capacity) (requests : List (Request κ ν)) :
    ∃ cache : Cache κ ν, empty? capacity = .ok cache ∧
      let answers := (cache.perform requests).1
      let after := (cache.perform requests).2
      (after.entries.map Prod.fst).Nodup ∧
        (after.index.map Prod.fst).Perm (after.entries.map Prod.fst) ∧
        after.size ≤ capacity ∧
        (answers, after.entries) = performFrom capacity [] requests ∧
        after.hits + after.misses = requests.countP Request.isGet ∧
        ((∀ request ∈ requests, request.isRemoval = false) →
          after.entries.map (fun entry => (entry.1, some entry.2)) =
            ((uses requests answers).reverse.eraseDups.take capacity).map
              fun key => (key, Request.lastValue? key requests)) := by
  let cache : Cache κ ν := { capacity, capacity_pos := positive }
  obtain ⟨linked, given, room, counted⟩ := (isLinked_empty (ν := ν) positive).perform requests
  have given' : (cache.perform requests).1 = (performFrom capacity [] requests).1 :=
    congrArg Prod.fst given
  have entries : (cache.perform requests).2.entries = (performFrom capacity [] requests).2 :=
    congrArg Prod.snd given
  have bounded : (cache.perform requests).2.size ≤ capacity := Nat.le_trans linked.bounded (Nat.le_of_eq room)
  refine ⟨cache, dif_pos positive, ?_, ?_, bounded, given, ?_, ?_⟩
  · rw [Cache.entries, Cell.map_fst_entry]
    exact linked.keys
  · rw [Cache.entries, Cell.map_fst_entry]
    exact linked.index_keys
  · exact counted.trans (Nat.zero_add _)
  · intro keep
    rw [given', entries]
    exact map_performFrom positive keep

/-- A key that is looked up stays, and the other one makes room for a third. -/
theorem perform_empty?_third :
    let requests : List (Request Nat Nat) := [.put 1 10, .put 2 20, .get 1, .put 3 30, .get 2]
    0 < 2 ∧ (∀ request ∈ requests, request.isRemoval = false) ∧
      ∃ cache : Cache Nat Nat, empty? 2 = .ok cache ∧ (cache.perform requests).2.size ≤ 2 ∧
        (cache.perform requests).2.entries = [(3, 30), (1, 10)] ∧
        (cache.perform requests).2.entries.map (fun entry => (entry.1, some entry.2)) =
          ([3, 1, 2].take 2).map fun key => (key, Request.lastValue? key requests) := by
  intro requests
  have keep : ∀ request ∈ requests, request.isRemoval = false := by decide
  refine ⟨by decide, keep, ?_⟩
  obtain ⟨cache, made, -, -, room, given, -, recent⟩ :=
    perform_empty? (show 0 < 2 by decide) requests
  have answers : (cache.perform requests).1 = [.done, .done, .value (some 10), .done, .value none] :=
    congrArg Prod.fst given
  have used : (uses requests (cache.perform requests).1).reverse.eraseDups = [3, 1, 2] := by
    rw [answers]
    decide
  refine ⟨cache, made, room, congrArg Prod.snd given, ?_⟩
  rw [← used]
  exact recent keep

end Cache

end CPreprocessor
