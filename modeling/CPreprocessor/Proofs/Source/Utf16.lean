/-
# UTF-16 sources

A source that a byte-order mark announces as UTF-16 is decoded exactly: it is accepted if its units
are well formed, which means that surrogates stand in pairs, and then it becomes the UTF-8 bytes of
the scalar values it encodes. Scalar values are characters here, while a text is still a list of
bytes, each written as the character with its code.
-/
import Mathlib.Data.List.Basic
import CPreprocessor.Proofs.Source.Plain

namespace CPreprocessor.Encoding

/-! ## What UTF-16 and UTF-8 are -/

namespace ByteOrder

/-- The byte-order mark. -/
def mark : ByteOrder → Text
  | .littleEndian => ['\xff', '\xfe']
  | .bigEndian => ['\xfe', '\xff']

/-- The two bytes of a unit. -/
def bytes (order : ByteOrder) (unit : Nat) : Text :=
  match order with
  | .littleEndian => [Char.ofNat (unit % 0x100), Char.ofNat (unit / 0x100)]
  | .bigEndian => [Char.ofNat (unit / 0x100), Char.ofNat (unit % 0x100)]

/-- The units of a byte sequence. -/
def units (order : ByteOrder) : Text → List Nat
  | a :: b :: rest => order.unit a b :: units order rest
  | _ => []

end ByteOrder

/-- The units of a scalar value: itself, or a high surrogate and a low one with ten bits each. -/
def utf16Units (scalar : Char) : List Nat :=
  if scalar.toNat < 0x10000 then
    [scalar.toNat]
  else
    [0xD800 + (scalar.toNat - 0x10000) / 0x400, 0xDC00 + (scalar.toNat - 0x10000) % 0x400]

/-- Scalar values in UTF-16, without a byte-order mark. -/
def utf16 (order : ByteOrder) (scalars : List Char) : Text :=
  (scalars.flatMap utf16Units).flatMap order.bytes

/-- Scalar values in UTF-8. -/
def utf8Text (scalars : List Char) : Text :=
  (scalars.flatMap String.utf8EncodeChar).map Char.ofUInt8

/-- Surrogates stand in pairs: directly after each high one there is a low one, and each low one
stands after a high one. -/
structure ArePaired (units : List Nat) : Prop where
  followed : ∀ i high, units[i]? = some high → isHighSurrogate high = true →
    ∃ low, units[i + 1]? = some low ∧ isLowSurrogate low = true
  preceded : ∀ i low, units[i]? = some low → isLowSurrogate low = true →
    ∃ j high, i = j + 1 ∧ units[j]? = some high ∧ isHighSurrogate high = true

/-- A byte sequence is well-formed UTF-16. -/
structure IsUtf16 (order : ByteOrder) (bytes : Text) : Prop where
  even : bytes.length % 2 = 0
  paired : ArePaired (order.units bytes)

/-! ## UTF-8 -/

/-- A byte written as a character. -/
theorem ofUInt8_ofNat {n m : Nat} (same : n = m) (small : m < 0x100) :
    Char.ofNat n = Char.ofUInt8 (UInt8.ofNat m) := by
  apply Char.toNat_inj.mp
  rw [toNat_ofNat (by omega), same]
  show m = (UInt8.ofNat m).toUInt32.toNat
  rw [UInt8.toNat_toUInt32, UInt8.toNat_ofNat', Nat.mod_eq_of_lt small]

theorem isValidChar_toNat (scalar : Char) :
    scalar.toNat < 0xd800 ∨ 0xdfff < scalar.toNat ∧ scalar.toNat < 0x110000 :=
  scalar.valid

theorem utf8_toNat (scalar : Char) :
    utf8 scalar.toNat = (String.utf8EncodeChar scalar).map Char.ofUInt8 := by
  have valid := isValidChar_toNat scalar
  have value : scalar.val.toNat = scalar.toNat := rfl
  rw [utf8, String.utf8EncodeChar.eq_1, value]
  generalize scalar.toNat = n at valid ⊢
  have byte {n m : Nat} (same : n = m) (small : m < 0x100) := ofUInt8_ofNat same small
  simp only [← Nat.lt_add_one_iff, Nat.reduceAdd]
  split_ifs with one two three
  · rw [List.map_singleton, byte rfl (by omega)]
  · rw [List.map_cons, List.map_singleton,
      byte (show 0xC0 + n / 0x40 = n / 64 % 32 + 192 by omega) (by omega),
      byte (Nat.add_comm 0x80 (n % 0x40)) (by omega)]
  · rw [List.map_cons, List.map_cons, List.map_singleton,
      byte (show 0xE0 + n / 0x1000 = n / 4096 % 16 + 224 by omega) (by omega),
      byte (Nat.add_comm 0x80 (n / 0x40 % 0x40)) (by omega),
      byte (Nat.add_comm 0x80 (n % 0x40)) (by omega)]
  · rw [List.map_cons, List.map_cons, List.map_cons, List.map_singleton,
      byte (show 0xF0 + n / 0x40000 = n / 262144 % 8 + 240 by omega) (by omega),
      byte (Nat.add_comm 0x80 (n / 0x1000 % 0x40)) (by omega),
      byte (Nat.add_comm 0x80 (n / 0x40 % 0x40)) (by omega),
      byte (Nat.add_comm 0x80 (n % 0x40)) (by omega)]

theorem flatMap_utf8_toNat (scalars : List Char) :
    (scalars.map Char.toNat).flatMap utf8 = utf8Text scalars := by
  rw [utf8Text, List.map_flatMap, List.flatMap_map]
  exact congrArg (fun encode => scalars.flatMap encode) (funext utf8_toNat)

/-! ## Units and their bytes -/

theorem ofNat_toNat_add {n : Nat} {c : Char} (same : n = c.toNat) : Char.ofNat n = c := by
  rw [same, Char.ofNat_toNat]

/-- The bytes of a unit are the ones it was read from. -/
theorem bytes_unit (order : ByteOrder) {a b : Char} (first : a.toNat < 256) (second : b.toNat < 256) :
    order.bytes (order.unit a b) = [a, b] := by
  cases order with
  | littleEndian =>
    simp only [ByteOrder.bytes, ByteOrder.unit]
    rw [ofNat_toNat_add (by omega : _ = a.toNat), ofNat_toNat_add (by omega : _ = b.toNat)]
  | bigEndian =>
    simp only [ByteOrder.bytes, ByteOrder.unit]
    rw [ofNat_toNat_add (by omega : _ = a.toNat), ofNat_toNat_add (by omega : _ = b.toNat)]

/-- A unit is read from its bytes. -/
theorem exists_bytes (order : ByteOrder) {unit : Nat} (small : unit < 0x10000) :
    ∃ a b, order.bytes unit = [a, b] ∧ order.unit a b = unit ∧ Text.IsBytes [a, b] := by
  have low := toNat_ofNat (show unit % 0x100 < 0xd800 by omega)
  have high := toNat_ofNat (show unit / 0x100 < 0xd800 by omega)
  cases order with
  | littleEndian =>
    refine ⟨_, _, rfl, ?_, ?_⟩
    · simp only [ByteOrder.unit]
      omega
    · simp only [Text.IsBytes, List.forall_mem_cons]
      exact ⟨by omega, by omega, List.forall_mem_nil _⟩
  | bigEndian =>
    refine ⟨_, _, rfl, ?_, ?_⟩
    · simp only [ByteOrder.unit]
      omega
    · simp only [Text.IsBytes, List.forall_mem_cons]
      exact ⟨by omega, by omega, List.forall_mem_nil _⟩

/-! ## Pairs of surrogates -/

theorem isLowSurrogate_of_isHighSurrogate {unit : Nat} (isHigh : isHighSurrogate unit = true) :
    isLowSurrogate unit = false := by
  simp only [isHighSurrogate, isLowSurrogate, Bool.and_eq_true, decide_eq_true_eq] at isHigh ⊢
  simp
  omega

theorem isHighSurrogate_of_isLowSurrogate {unit : Nat} (isLow : isLowSurrogate unit = true) :
    isHighSurrogate unit = false := by
  by_contra isHigh
  rw [isLowSurrogate_of_isHighSurrogate (Bool.not_eq_false _ ▸ isHigh)] at isLow
  cases isLow

theorem arePaired_nil : ArePaired [] :=
  ⟨nofun, nofun⟩

/-- A unit that is no surrogate stands for itself. -/
theorem arePaired_cons {unit : Nat} {units : List Nat} (noHigh : isHighSurrogate unit = false)
    (noLow : isLowSurrogate unit = false) : ArePaired (unit :: units) ↔ ArePaired units := by
  constructor
  · intro paired
    refine ⟨fun i high => paired.followed (i + 1) high, fun i low isNth isLow => ?_⟩
    obtain ⟨j, high, same, before, isHigh⟩ := paired.preceded (i + 1) low isNth isLow
    cases same
    cases i with
    | zero =>
      cases before
      rw [noHigh] at isHigh
      cases isHigh
    | succ i => exact ⟨i, high, rfl, before, isHigh⟩
  · intro paired
    refine ⟨fun i high isNth isHigh => ?_, fun i low isNth isLow => ?_⟩
    · cases i with
      | zero =>
        cases isNth
        rw [noHigh] at isHigh
        cases isHigh
      | succ i => exact paired.followed i high isNth isHigh
    · cases i with
      | zero =>
        cases isNth
        rw [noLow] at isLow
        cases isLow
      | succ i =>
        obtain ⟨j, high, rfl, before, isHigh⟩ := paired.preceded i low isNth isLow
        exact ⟨j + 1, high, rfl, before, isHigh⟩

/-- A high surrogate takes the low one after it. -/
theorem arePaired_pair {high low : Nat} {units : List Nat} (isHigh : isHighSurrogate high = true)
    (isLow : isLowSurrogate low = true) : ArePaired (high :: low :: units) ↔ ArePaired units := by
  have highNoLow := isLowSurrogate_of_isHighSurrogate isHigh
  have lowNoHigh := isHighSurrogate_of_isLowSurrogate isLow
  constructor
  · intro paired
    refine ⟨fun i => paired.followed (i + 2), fun i unit isNth unitLow => ?_⟩
    obtain ⟨j, before, same, isBefore, beforeHigh⟩ := paired.preceded (i + 2) unit isNth unitLow
    cases same
    cases i with
    | zero =>
      cases isBefore
      rw [lowNoHigh] at beforeHigh
      cases beforeHigh
    | succ i => exact ⟨i, before, rfl, isBefore, beforeHigh⟩
  · intro paired
    refine ⟨fun i unit isNth unitHigh => ?_, fun i unit isNth unitLow => ?_⟩
    · rcases i with _ | _ | i
      · exact ⟨low, rfl, isLow⟩
      · cases isNth
        rw [lowNoHigh] at unitHigh
        cases unitHigh
      · exact paired.followed i unit isNth unitHigh
    · rcases i with _ | _ | i
      · cases isNth
        rw [highNoLow] at unitLow
        cases unitLow
      · exact ⟨0, high, rfl, rfl, isHigh⟩
      · obtain ⟨j, before, rfl, isBefore, beforeHigh⟩ := paired.preceded i unit isNth unitLow
        exact ⟨j + 2, before, rfl, isBefore, beforeHigh⟩

theorem not_arePaired_high {high : Nat} {units : List Nat} (isHigh : isHighSurrogate high = true)
    (noLow : ∀ low ∈ units.head?, isLowSurrogate low = false) : ¬ ArePaired (high :: units) := by
  intro paired
  obtain ⟨low, next, isLow⟩ := paired.followed 0 high rfl isHigh
  rw [List.getElem?_cons_succ, ← List.head?_eq_getElem?] at next
  rw [noLow low next] at isLow
  cases isLow

theorem not_arePaired_low {low : Nat} {units : List Nat} (isLow : isLowSurrogate low = true) :
    ¬ ArePaired (low :: units) := by
  intro paired
  obtain ⟨j, high, first, -⟩ := paired.preceded 0 low rfl isLow
  cases first

/-! ## Decoding -/

section Steps

variable {order : ByteOrder} {a b c d : Char}

/-- A unit that is no surrogate is a scalar value. -/
theorem utf16Scalars_unit (noHigh : isHighSurrogate (order.unit a b) = false)
    (noLow : isLowSurrogate (order.unit a b) = false) (rest : Text) :
    utf16Scalars order (a :: b :: rest) =
      (utf16Scalars order rest).map (order.unit a b :: ·) := by
  rw [utf16Scalars.eq_def]
  simp only [noHigh, noLow, Bool.false_eq_true, if_false]

/-- The scalar value of a pair of surrogates. -/
def pairValue (high low : Nat) : Nat :=
  0x10000 + (high - 0xD800) * 0x400 + (low - 0xDC00)

theorem utf16Scalars_pair (isHigh : isHighSurrogate (order.unit a b) = true)
    (isLow : isLowSurrogate (order.unit c d) = true) (rest : Text) :
    utf16Scalars order (a :: b :: c :: d :: rest) =
      (utf16Scalars order rest).map (pairValue (order.unit a b) (order.unit c d) :: ·) := by
  unfold pairValue
  rw [utf16Scalars.eq_def]
  simp only [isHigh, isLow, if_true]

end Steps

theorem isHighSurrogate_iff {unit : Nat} :
    isHighSurrogate unit = true ↔ 0xD800 ≤ unit ∧ unit ≤ 0xDBFF := by
  simp only [isHighSurrogate, Bool.and_eq_true, decide_eq_true_eq]

theorem isLowSurrogate_iff {unit : Nat} :
    isLowSurrogate unit = true ↔ 0xDC00 ≤ unit ∧ unit ≤ 0xDFFF := by
  simp only [isLowSurrogate, Bool.and_eq_true, decide_eq_true_eq]

/-- A scalar value is a unit that is no surrogate, or a pair of surrogates. -/
theorem utf16Units_cases (scalar : Char) :
    (utf16Units scalar = [scalar.toNat] ∧ scalar.toNat < 0x10000 ∧
        isHighSurrogate scalar.toNat = false ∧ isLowSurrogate scalar.toNat = false) ∨
      ∃ high low, utf16Units scalar = [high, low] ∧ isHighSurrogate high = true ∧
        isLowSurrogate low = true ∧ scalar.toNat = pairValue high low := by
  have valid := isValidChar_toNat scalar
  unfold utf16Units
  split
  · rename_i small
    refine .inl ⟨rfl, small, ?_, ?_⟩
    · rw [Bool.eq_false_iff, ne_eq, isHighSurrogate_iff]
      omega
    · rw [Bool.eq_false_iff, ne_eq, isLowSurrogate_iff]
      omega
  · refine .inr ⟨_, _, rfl, ?_, ?_, ?_⟩
    · exact isHighSurrogate_iff.mpr (by omega)
    · exact isLowSurrogate_iff.mpr (by omega)
    · unfold pairValue
      omega

theorem utf16Units_pair {high low : Nat} (isHigh : isHighSurrogate high = true)
    (isLow : isLowSurrogate low = true) {scalar : Char} (value : scalar.toNat = pairValue high low) :
    utf16Units scalar = [high, low] := by
  rw [isHighSurrogate_iff] at isHigh
  rw [isLowSurrogate_iff] at isLow
  unfold pairValue at value
  rw [utf16Units, value, if_neg (by omega), List.cons.injEq, List.cons.injEq]
  exact ⟨by omega, by omega, rfl⟩

theorem exists_scalar {n : Nat} (valid : n < 0xd800 ∨ 0xdfff < n ∧ n < 0x110000) :
    ∃ scalar : Char, scalar.toNat = n := by
  have isValid : n.isValidChar := valid
  refine ⟨Char.ofNat n, ?_⟩
  rw [Char.ofNat, dif_pos isValid]
  rfl

theorem utf16_cons (order : ByteOrder) (scalar : Char) (scalars : List Char) :
    utf16 order (scalar :: scalars) =
      (utf16Units scalar).flatMap order.bytes ++ utf16 order scalars := by
  rw [utf16, utf16, List.flatMap_cons, List.flatMap_append]

theorem exists_of_map_cons {first : Nat} {later : Except EncodingError (List Nat)}
    {numbers : List Nat} (decoded : later.map (first :: ·) = .ok numbers) :
    ∃ tail, later = .ok tail ∧ numbers = first :: tail := by
  cases later with
  | error cause => cases decoded
  | ok tail =>
    cases decoded
    exact ⟨tail, rfl, rfl⟩

theorem exists_map_cons_iff {first : Nat} {later : Except EncodingError (List Nat)} :
    (∃ numbers, later.map (first :: ·) = .ok numbers) ↔ ∃ numbers, later = .ok numbers := by
  constructor
  · rintro ⟨numbers, decoded⟩
    obtain ⟨tail, later, -⟩ := exists_of_map_cons decoded
    exact ⟨tail, later⟩
  · rintro ⟨numbers, rfl⟩
    exact ⟨first :: numbers, rfl⟩

theorem isUtf16_iff {order : ByteOrder} {bytes : Text} :
    IsUtf16 order bytes ↔ bytes.length % 2 = 0 ∧ ArePaired (order.units bytes) :=
  ⟨fun wellFormed => ⟨wellFormed.even, wellFormed.paired⟩,
    fun ⟨even, paired⟩ => ⟨even, paired⟩⟩

/-- Two bytes more do not change whether the number of bytes is even. -/
theorem length_mod_two (a b : Char) (rest : Text) : (a :: b :: rest).length % 2 = rest.length % 2 := by
  simp only [List.length_cons]
  omega

/-- Bytes have scalar values as UTF-16 exactly if they are well formed. -/
theorem exists_utf16Scalars_iff (order : ByteOrder) (bytes : Text) :
    (∃ numbers, utf16Scalars order bytes = .ok numbers) ↔ IsUtf16 order bytes := by
  fun_induction utf16Scalars order bytes with
  | case1 =>
    exact ⟨fun _ => ⟨rfl, arePaired_nil⟩, fun _ => ⟨[], rfl⟩⟩
  | case2 c =>
    refine ⟨?_, fun wellFormed => ?_⟩
    · rintro ⟨numbers, ⟨⟩⟩
    · cases wellFormed.even
  | case3 a b unit high c d after low isLow scalar ih =>
    rw [exists_map_cons_iff, ih, isUtf16_iff, isUtf16_iff, length_mod_two, length_mod_two,
      ByteOrder.units, ByteOrder.units, arePaired_pair high isLow]
  | case4 a b unit high c d after low noLow =>
    refine ⟨?_, fun wellFormed => ?_⟩
    · rintro ⟨numbers, ⟨⟩⟩
    · refine (not_arePaired_high high ?_ wellFormed.paired).elim
      rintro unit ⟨⟩
      exact Bool.eq_false_iff.mpr noLow
  | case5 a b rest unit high short =>
    refine ⟨?_, fun wellFormed => ?_⟩
    · rintro ⟨numbers, ⟨⟩⟩
    · refine (not_arePaired_high high ?_ wellFormed.paired).elim
      rw [ByteOrder.units]
      · rintro unit ⟨⟩
      · exact short
  | case6 a b rest unit noHigh isLow =>
    refine ⟨?_, fun wellFormed => (not_arePaired_low isLow wellFormed.paired).elim⟩
    rintro ⟨numbers, ⟨⟩⟩
  | case7 a b rest unit noHigh noLow ih =>
    rw [exists_map_cons_iff, ih, isUtf16_iff, isUtf16_iff, length_mod_two, ByteOrder.units,
      arePaired_cons (Bool.eq_false_iff.mpr noHigh) (Bool.eq_false_iff.mpr noLow)]

/-- The scalar values of bytes are the ones that the bytes encode. -/
theorem exists_scalars {order : ByteOrder} {bytes : Text} {numbers : List Nat}
    (areBytes : bytes.IsBytes) (decoded : utf16Scalars order bytes = .ok numbers) :
    ∃ scalars, bytes = utf16 order scalars ∧ numbers = scalars.map Char.toNat := by
  fun_induction utf16Scalars order bytes generalizing numbers with
  | case1 =>
    cases decoded
    exact ⟨[], rfl, rfl⟩
  | case2 => cases decoded
  | case3 a b unit high c d after low isLow value =>
    rename_i ih
    obtain ⟨tail, later, rfl⟩ := exists_of_map_cons decoded
    simp only [Text.IsBytes, List.forall_mem_cons] at areBytes
    obtain ⟨first, second, third, fourth, others⟩ := areBytes
    obtain ⟨scalars, rfl, rfl⟩ := ih others later
    obtain ⟨scalar, isValue⟩ : ∃ scalar : Char, scalar.toNat = value := by
      rw [isHighSurrogate_iff] at high
      rw [isLowSurrogate_iff] at isLow
      exact exists_scalar (by omega)
    refine ⟨scalar :: scalars, ?_, ?_⟩
    · rw [utf16_cons, utf16Units_pair high isLow isValue, List.flatMap_cons, List.flatMap_singleton,
        bytes_unit order first second, bytes_unit order third fourth]
      rfl
    · rw [List.map_cons, isValue]
  | case4 => cases decoded
  | case5 => cases decoded
  | case6 => cases decoded
  | case7 a b rest unit noHigh noLow =>
    rename_i ih
    obtain ⟨tail, later, rfl⟩ := exists_of_map_cons decoded
    simp only [Text.IsBytes, List.forall_mem_cons] at areBytes
    obtain ⟨first, second, others⟩ := areBytes
    obtain ⟨scalars, rfl, rfl⟩ := ih others later
    have small := unit_lt order first second
    obtain ⟨scalar, isUnit⟩ : ∃ scalar : Char, scalar.toNat = unit := by
      rw [isHighSurrogate_iff] at noHigh
      rw [isLowSurrogate_iff] at noLow
      exact exists_scalar (by omega)
    refine ⟨scalar :: scalars, ?_, ?_⟩
    · rw [utf16_cons, utf16Units, isUnit, if_pos small, List.flatMap_singleton,
        bytes_unit order first second]
      rfl
    · rw [List.map_cons, isUnit]

theorem utf16Scalars_utf16 (order : ByteOrder) (scalars : List Char) :
    utf16Scalars order (utf16 order scalars) = .ok (scalars.map Char.toNat) := by
  induction scalars with
  | nil => rfl
  | cons scalar scalars ih =>
    rw [utf16_cons, List.map_cons]
    rcases utf16Units_cases scalar with
      ⟨units, small, noHigh, noLow⟩ | ⟨high, low, units, isHigh, isLow, value⟩
    · obtain ⟨a, b, bytes, unit, -⟩ := exists_bytes order small
      rw [← unit] at noHigh noLow
      rw [units, List.flatMap_singleton, bytes, List.cons_append, List.singleton_append,
        utf16Scalars_unit noHigh noLow, ih, unit]
      rfl
    · have highSmall : high < 0x10000 := by
        have := isHighSurrogate_iff.mp isHigh
        omega
      have lowSmall : low < 0x10000 := by
        have := isLowSurrogate_iff.mp isLow
        omega
      obtain ⟨a, b, bytes, unit, -⟩ := exists_bytes order highSmall
      obtain ⟨c, d, bytes', unit', -⟩ := exists_bytes order lowSmall
      rw [← unit] at isHigh
      rw [← unit'] at isLow
      rw [units, List.flatMap_cons, List.flatMap_singleton, bytes, bytes', value]
      simp only [List.cons_append, List.nil_append]
      rw [utf16Scalars_pair isHigh isLow, ih, unit, unit']
      rfl

theorem decode_mark (order : ByteOrder) (bytes : Text) :
    decode (order.mark ++ bytes) = utf16ToUtf8 order bytes := by
  cases order with
  | littleEndian => rfl
  | bigEndian => rfl

theorem utf16ToUtf8_utf16 (order : ByteOrder) (scalars : List Char) :
    utf16ToUtf8 order (utf16 order scalars) = .ok (utf8Text scalars) := by
  have wellFormed := (exists_utf16Scalars_iff order _).mp ⟨_, utf16Scalars_utf16 order scalars⟩
  rw [utf16ToUtf8, if_neg (by simp [wellFormed.even]), utf16Scalars_utf16, ← flatMap_utf8_toNat]
  rfl

/-- Bytes encode one sequence of scalar values at most. -/
theorem utf16_injective (order : ByteOrder) : Function.Injective (utf16 order) := by
  intro scalars others same
  have decoded := utf16Scalars_utf16 order scalars
  rw [same, utf16Scalars_utf16] at decoded
  exact (List.map_injective_iff.mpr (fun _ _ => Char.toNat_inj.mp) (Except.ok.inj decoded)).symm

theorem isUtf16_of_decoded {order : ByteOrder} {bytes text : Text}
    (decoded : utf16ToUtf8 order bytes = .ok text) : IsUtf16 order bytes := by
  unfold utf16ToUtf8 at decoded
  split at decoded
  · cases decoded
  · cases found : utf16Scalars order bytes with
    | error cause =>
      rw [found] at decoded
      cases decoded
    | ok numbers => exact (exists_utf16Scalars_iff order bytes).mp ⟨numbers, found⟩

/-- UTF-16 is decoded exactly. After a byte-order mark, well-formed bytes become the UTF-8 bytes of
the one sequence of scalar values that they encode, and bytes that are not well formed are refused;
so a sequence of scalar values that was encoded in either byte order comes back as its UTF-8 bytes. -/
theorem decode_utf16 (order : ByteOrder) {bytes : Text} (areBytes : bytes.IsBytes) :
    (IsUtf16 order bytes → ∃ scalars, bytes = utf16 order scalars ∧
      (∀ others, bytes = utf16 order others → others = scalars) ∧
      decode (order.mark ++ bytes) = .ok (utf8Text scalars)) ∧
    (¬ IsUtf16 order bytes → ∃ cause, decode (order.mark ++ bytes) = .error cause) ∧
    ∀ scalars, decode (order.mark ++ utf16 order scalars) = .ok (utf8Text scalars) := by
  simp only [decode_mark]
  refine ⟨fun wellFormed => ?_, fun malformed => ?_, utf16ToUtf8_utf16 order⟩
  · obtain ⟨numbers, found⟩ := (exists_utf16Scalars_iff order bytes).mpr wellFormed
    obtain ⟨scalars, rfl, -⟩ := exists_scalars areBytes found
    exact ⟨scalars, rfl, fun others same => (utf16_injective order same).symm,
      utf16ToUtf8_utf16 order scalars⟩
  · cases decoded : utf16ToUtf8 order bytes with
    | error cause => exact ⟨cause, rfl⟩
    | ok text => exact (malformed (isUtf16_of_decoded decoded)).elim

/-- A pair of surrogates is decoded, and one whose halves have changed places is refused. -/
theorem decode_utf16_surrogates :
    Text.IsBytes ['\xd8', '\x3d', '\xde', '\x00'] ∧ Text.IsBytes ['\xde', '\x00', '\xd8', '\x3d'] ∧
      decode ['\xfe', '\xff', '\xd8', '\x3d', '\xde', '\x00'] = .ok ['\xf0', '\x9f', '\x98', '\x80'] ∧
      ∃ cause, decode ['\xfe', '\xff', '\xde', '\x00', '\xd8', '\x3d'] = .error cause := by
  have pair : Text.IsBytes ['\xd8', '\x3d', '\xde', '\x00'] := by simp [Text.IsBytes]
  have swapped : Text.IsBytes ['\xde', '\x00', '\xd8', '\x3d'] := by simp [Text.IsBytes]
  have encoded : utf16 .bigEndian ['😀'] = ['\xd8', '\x3d', '\xde', '\x00'] := by decide
  have bytes : utf8Text ['😀'] = ['\xf0', '\x9f', '\x98', '\x80'] := by decide
  have wellFormed : IsUtf16 .bigEndian ['\xd8', '\x3d', '\xde', '\x00'] :=
    ⟨by decide, (arePaired_pair (by decide) (by decide)).mpr arePaired_nil⟩
  obtain ⟨scalars, -, only, decoded⟩ := (decode_utf16 .bigEndian pair).1 wellFormed
  rw [← only ['😀'] encoded.symm, bytes] at decoded
  exact ⟨pair, swapped, decoded, (decode_utf16 .bigEndian swapped).2.1 fun wellFormed =>
    not_arePaired_low (by decide) wellFormed.paired⟩

end CPreprocessor.Encoding
