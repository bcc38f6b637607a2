/-
# Plain texts

A text that holds no carriage return, no line join and no byte-order mark is its own
source: decoding and normalization leave it as it is. Whatever a source is made from,
its logical characters are bytes and none of them is a carriage return.
-/
import CPreprocessor.Source
import CPreprocessor.Proofs.Lexing.Runs

namespace CPreprocessor

/-- Every character of a text is a byte. -/
def Text.IsBytes (text : Text) : Prop :=
  ∀ c ∈ text, c.toNat < 256

namespace Encoding

/-- A text starts with a byte-order mark. -/
def HasMark (text : Text) : Prop :=
  ['\xef', '\xbb', '\xbf'] <+: text ∨ ['\xff', '\xfe'] <+: text ∨ ['\xfe', '\xff'] <+: text

/-- A text without a byte-order mark is taken as it is. -/
theorem decode_of_not_hasMark {text : Text} (noMark : ¬ HasMark text) : decode text = .ok text := by
  unfold decode
  split
  · exact (noMark (.inl (List.prefix_append _ _))).elim
  · exact (noMark (.inr (.inl (List.prefix_append _ _)))).elim
  · exact (noMark (.inr (.inr (List.prefix_append _ _)))).elim
  · rfl

/-- A mark of UTF-8 is dropped. -/
theorem decode_of_utf8_mark {text : Text} (mark : ['\xef', '\xbb', '\xbf'] <+: text) :
    decode text = .ok (text.drop 3) := by
  obtain ⟨rest, rfl⟩ := mark
  rfl

theorem toNat_ofNat {n : Nat} (below : n < 0xd800) : (Char.ofNat n).toNat = n := by
  have valid : n.isValidChar := .inl below
  rw [Char.ofNat, dif_pos valid]
  rfl

/-- The bytes of a scalar value stay below the bytes of byte-order marks of UTF-16. -/
theorem utf8_lt {scalar : Nat} (bound : scalar < 0x110000) :
    ∀ c ∈ utf8 scalar, c.toNat < 0xf8 := by
  have small {n : Nat} (below : n < 0xf8) : (Char.ofNat n).toNat < 0xf8 := by
    rw [toNat_ofNat (by omega)]
    exact below
  unfold utf8
  split_ifs
  · exact List.forall_mem_cons.mpr ⟨small (by omega), nofun⟩
  · refine List.forall_mem_cons.mpr ⟨small (by omega), ?_⟩
    exact List.forall_mem_cons.mpr ⟨small (by omega), nofun⟩
  · refine List.forall_mem_cons.mpr ⟨small (by omega), ?_⟩
    refine List.forall_mem_cons.mpr ⟨small (by omega), ?_⟩
    exact List.forall_mem_cons.mpr ⟨small (by omega), nofun⟩
  · refine List.forall_mem_cons.mpr ⟨small (by omega), ?_⟩
    refine List.forall_mem_cons.mpr ⟨small (by omega), ?_⟩
    refine List.forall_mem_cons.mpr ⟨small (by omega), ?_⟩
    exact List.forall_mem_cons.mpr ⟨small (by omega), nofun⟩

theorem unit_lt (order : ByteOrder) {a b : Char} (first : a.toNat < 256) (second : b.toNat < 256) :
    order.unit a b < 0x10000 := by
  cases order with
  | littleEndian => simp only [ByteOrder.unit]; omega
  | bigEndian => simp only [ByteOrder.unit]; omega

/-- A value and the ones decoded after it. -/
theorem forall_mem_of_map_cons {p : Nat → Prop} {first : Nat} {later : Except EncodingError (List Nat)}
    {scalars : List Nat} (decoded : later.map (first :: ·) = .ok scalars) (head : p first)
    (others : ∀ tail, later = .ok tail → ∀ scalar ∈ tail, p scalar) : ∀ scalar ∈ scalars, p scalar := by
  cases later with
  | error cause => cases decoded
  | ok tail =>
      cases decoded
      exact List.forall_mem_cons.mpr ⟨head, others tail rfl⟩

/-- UTF-16 holds no scalar value from 0x110000 on. -/
theorem utf16Scalars_lt {order : ByteOrder} {bytes : Text} {scalars : List Nat}
    (areBytes : Text.IsBytes bytes) (decoded : utf16Scalars order bytes = .ok scalars) :
    ∀ scalar ∈ scalars, scalar < 0x110000 := by
  fun_induction utf16Scalars order bytes generalizing scalars with
  | case1 =>
      cases decoded
      exact nofun
  | case2 => cases decoded
  | case3 a b unit high c d after low isLow scalar =>
      rename_i ih
      have second := unit_lt order (areBytes c (by simp)) (areBytes d (by simp))
      refine forall_mem_of_map_cons decoded ?_ fun tail later => ih (fun e present => ?_) later
      · simp only [isHighSurrogate, isLowSurrogate, Bool.and_eq_true, decide_eq_true_eq] at high isLow
        omega
      · exact areBytes e (by simp [present])
  | case4 => cases decoded
  | case5 => cases decoded
  | case6 => cases decoded
  | case7 a b rest unit noHigh noLow =>
      rename_i ih
      have one := unit_lt order (areBytes a (by simp)) (areBytes b (by simp))
      refine forall_mem_of_map_cons decoded ?_ fun tail later => ih (fun e present => ?_) later
      · omega
      · exact areBytes e (by simp [present])

theorem utf16ToUtf8_lt {order : ByteOrder} {bytes text : Text} (areBytes : Text.IsBytes bytes)
    (decoded : utf16ToUtf8 order bytes = .ok text) : ∀ c ∈ text, c.toNat < 0xf8 := by
  unfold utf16ToUtf8 at decoded
  split_ifs at decoded with odd
  cases found : utf16Scalars order bytes with
  | error cause => rw [found] at decoded; cases decoded
  | ok scalars =>
      rw [found] at decoded
      cases decoded
      intro c present
      obtain ⟨scalar, isScalar, isByte⟩ := List.mem_flatMap.mp present
      exact utf8_lt (utf16Scalars_lt areBytes found scalar isScalar) c isByte

/-- A source that a mark announces as UTF-16 holds no byte of such a mark once it is decoded. -/
theorem decode_lt {raw text : Text} (areBytes : Text.IsBytes raw)
    (mark : ['\xff', '\xfe'] <+: raw ∨ ['\xfe', '\xff'] <+: raw) (decoded : decode raw = .ok text) :
    ∀ c ∈ text, c.toNat < 0xf8 := by
  rcases mark with ⟨rest, rfl⟩ | ⟨rest, rfl⟩
  · exact utf16ToUtf8_lt (fun c present => areBytes c (List.mem_append_right _ present)) decoded
  · exact utf16ToUtf8_lt (fun c present => areBytes c (List.mem_append_right _ present)) decoded

/-- Decoded bytes are bytes. -/
theorem isBytes_decode {raw text : Text} (areBytes : Text.IsBytes raw)
    (decoded : decode raw = .ok text) : text.IsBytes := by
  by_cases mark : HasMark raw
  · rcases mark with utf8 | utf16
    · rw [decode_of_utf8_mark utf8] at decoded
      cases decoded
      exact fun c present => areBytes c (List.mem_of_mem_drop present)
    · intro c present
      have below := decode_lt areBytes utf16 decoded c present
      omega
  · rw [decode_of_not_hasMark mark] at decoded
    cases decoded
    exact areBytes

end Encoding

namespace Normalization

theorem characters_nil (trigraphs : Bool) (place : Position) :
    characters trigraphs place [] = ([], place) := by
  rw [characters]

theorem characters_of_join {trigraphs : Bool} {place : Position} {c : Char} {rest : Text} {extra : Nat}
    (join : lineJoin? trigraphs c rest = some extra) :
    characters trigraphs place (c :: rest) =
      characters trigraphs (place.advance (extra + 1) (c :: rest)) (rest.drop extra) := by
  rw [characters, join]

theorem characters_of_not_join {trigraphs : Bool} {place : Position} {c : Char} {rest : Text}
    (noJoin : lineJoin? trigraphs c rest = none) :
    (characters trigraphs place (c :: rest)).1 =
      ((logical trigraphs c rest).char, place) ::
        (characters trigraphs (place.advance ((logical trigraphs c rest).extra + 1) (c :: rest))
          (rest.drop (logical trigraphs c rest).extra)).1 := by
  rw [characters, noJoin]

/-- A trigraph stands for a character that is no carriage return, and in ASCII. -/
theorem trigraph_cases {last replaced : Char} (known : trigraph last = some replaced) :
    replaced ≠ '\r' ∧ replaced.toNat < 256 := by
  unfold trigraph at known
  split at known <;> cases known <;> decide

/-- How the logical character at the start of `c :: rest` is read. -/
inductive Spells (trigraphs : Bool) : Char → Text → Logical → Prop
  | trigraph {last replaced : Char} {more : Text} (on : trigraphs = true)
      (known : trigraph last = some replaced) :
      Spells trigraphs '?' ('?' :: last :: more) ⟨replaced, 2⟩
  | returnAndFeed {more : Text} : Spells trigraphs '\r' ('\n' :: more) ⟨'\n', 1⟩
  | returnAlone {rest : Text} (noFeed : rest.head? ≠ some '\n') : Spells trigraphs '\r' rest ⟨'\n', 0⟩
  | plain {c : Char} {rest : Text} (noReturn : c ≠ '\r')
      (noTrigraph : trigraphs = true → ∀ last more, c = '?' → rest = '?' :: last :: more →
        Normalization.trigraph last = none) :
      Spells trigraphs c rest ⟨c, 0⟩

theorem spells_logical (trigraphs : Bool) (c : Char) (rest : Text) :
    Spells trigraphs c rest (logical trigraphs c rest) := by
  unfold logical
  split
  · rename_i last more
    cases trigraphs with
    | false => exact .plain (by decide) nofun
    | true =>
      cases known : trigraph last with
      | some replaced => exact .trigraph rfl known
      | none =>
        refine .plain (by decide) fun _ last' more' _ same => ?_
        cases same
        exact known
  · exact .returnAndFeed
  · rename_i noFeed
    refine .returnAlone fun feed => ?_
    obtain ⟨more, rfl⟩ := List.head?_eq_some_iff.mp feed
    exact noFeed more rfl
  · rename_i noReturn noTrigraph _
    exact .plain noReturn fun _ last more isMark same => (noTrigraph last more isMark same).elim

/-- A logical character is no carriage return. It is the byte it is read from, a line feed, or what
a trigraph stands for. -/
theorem logical_cases (trigraphs : Bool) (c : Char) (rest : Text) :
    logical trigraphs c rest = ⟨c, 0⟩ ∧ c ≠ '\r' ∨
      c = '\r' ∧ (logical trigraphs c rest).char = '\n' ∨
      trigraphs = true ∧ ∃ last, trigraph last = some (logical trigraphs c rest).char := by
  have spelled := spells_logical trigraphs c rest
  generalize logical trigraphs c rest = head at spelled ⊢
  cases spelled with
  | trigraph on known => exact .inr (.inr ⟨on, _, known⟩)
  | returnAndFeed => exact .inr (.inl ⟨rfl, rfl⟩)
  | returnAlone => exact .inr (.inl ⟨rfl, rfl⟩)
  | plain noReturn => exact .inl ⟨rfl, noReturn⟩

/-- A line join is a logical backslash and a logical line feed after it. -/
theorem lineJoin?_eq_some {trigraphs : Bool} {c : Char} {rest : Text} {extra : Nat}
    (join : lineJoin? trigraphs c rest = some extra) :
    (logical trigraphs c rest).char = '\\' ∧
      ∃ d after, rest.drop (logical trigraphs c rest).extra = d :: after ∧
        (logical trigraphs d after).char = '\n' ∧
        extra = (logical trigraphs c rest).extra + 1 + (logical trigraphs d after).extra := by
  unfold lineJoin? at join
  simp only [] at join
  split at join
  · rename_i backslash
    split at join
    · cases join
    · rename_i d after left
      split at join
      · rename_i feed
        cases join
        exact ⟨backslash, d, after, left, feed, rfl⟩
      · cases join
  · cases join

theorem mem_characters {trigraphs : Bool} {place : Position} {text : Text} :
    ∀ c ∈ (characters trigraphs place text).1.map Prod.fst,
      c ≠ '\r' ∧ (c ∈ text ∨ c = '\n' ∨ trigraphs = true ∧ c.toNat < 256) := by
  induction size : text.length using Nat.strongRecOn generalizing text place with
  | ind n ih =>
      subst size
      cases text with
      | nil =>
          rw [characters_nil]
          exact nofun
      | cons c rest =>
          have later (n : Nat) (place : Position) :
              ∀ d ∈ (characters trigraphs place (rest.drop n)).1.map Prod.fst,
                d ≠ '\r' ∧ (d ∈ c :: rest ∨ d = '\n' ∨ trigraphs = true ∧ d.toNat < 256) := by
            intro d present
            have found := ih (rest.drop n).length
              (by simp only [List.length_drop, List.length_cons]; omega) rfl d present
            exact found.imp_right fun origin =>
              origin.imp_left fun inside => List.mem_cons_of_mem c (List.mem_of_mem_drop inside)
          cases join : lineJoin? trigraphs c rest with
          | some extra =>
              rw [characters_of_join join]
              exact later _ _
          | none =>
              rw [characters_of_not_join join, List.map_cons]
              refine List.forall_mem_cons.mpr ⟨?_, later _ _⟩
              rcases logical_cases trigraphs c rest with
                ⟨same, noReturn⟩ | ⟨-, lineFeed⟩ | ⟨on, last, known⟩
              · rw [same]
                exact ⟨noReturn, .inl List.mem_cons_self⟩
              · rw [lineFeed]
                exact ⟨(by decide : '\n' ≠ '\r'), .inr (.inl rfl)⟩
              · obtain ⟨noReturn, small⟩ := trigraph_cases known
                exact ⟨noReturn, .inr (.inr ⟨on, small⟩)⟩

/-- Without trigraphs, a character of a text without carriage returns stands for itself, unless it
joins lines. -/
theorem characters_cons_plain {place : Position} {c : Char} {rest : Text} (noReturn : '\r' ∉ c :: rest)
    (noJoin : ¬ ['\\', '\n'] <+: c :: rest) :
    characters false place (c :: rest) =
      ((c, place) :: (characters false (place.advance 1 (c :: rest)) rest).1,
        (characters false (place.advance 1 (c :: rest)) rest).2) := by
  have one (d : Char) (after : Text) (noReturn : d ≠ '\r') : logical false d after = ⟨d, 0⟩ := by
    rcases logical_cases false d after with ⟨same, -⟩ | ⟨isReturn, -⟩ | ⟨on, -⟩
    · exact same
    · exact (noReturn isReturn).elim
    · cases on
  have first : logical false c rest = ⟨c, 0⟩ :=
    one c rest fun same => noReturn (same ▸ List.mem_cons_self)
  have join : lineJoin? false c rest = none := by
    unfold lineJoin?
    simp only [first, List.drop_zero]
    split_ifs with backslash
    · cases rest with
      | nil => rfl
      | cons d after =>
          have second : logical false d after = ⟨d, 0⟩ :=
            one d after fun same => noReturn (same ▸ List.mem_cons_of_mem c List.mem_cons_self)
          simp only [second]
          rw [if_neg]
          rintro rfl
          exact noJoin ⟨after, by rw [backslash]; rfl⟩
    · rfl
  rw [characters, join]
  simp only [first, List.drop_zero, Nat.zero_add]

/-- Without trigraphs, normalization leaves a text without carriage returns and line joins as it
is. -/
theorem characters_plain {place : Position} {text : Text} (noReturn : '\r' ∉ text)
    (noJoin : ¬ ['\\', '\n'] <:+: text) :
    (characters false place text).1.map Prod.fst = text := by
  induction text generalizing place with
  | nil => rw [characters_nil]; rfl
  | cons c rest ih =>
      rw [characters_cons_plain noReturn fun starts => noJoin starts.isInfix, List.map_cons,
        ih (fun present => noReturn (List.mem_cons_of_mem c present))
          fun inside => noJoin (inside.trans (List.suffix_cons c rest).isInfix)]

theorem length_characters_le (trigraphs : Bool) (place : Position) (text : Text) :
    (characters trigraphs place text).1.length ≤ text.length := by
  induction size : text.length using Nat.strongRecOn generalizing text place with
  | ind n ih =>
      subst size
      cases text with
      | nil => rw [characters_nil]; exact Nat.le_refl _
      | cons c rest =>
          have later (n : Nat) (place : Position) :
              (characters trigraphs place (rest.drop n)).1.length ≤ rest.length := by
            have short := ih (rest.drop n).length
              (by simp only [List.length_drop, List.length_cons]; omega) place (rest.drop n) rfl
            rw [List.length_drop] at short
            omega
          cases join : lineJoin? trigraphs c rest with
          | some extra =>
              rw [characters_of_join join, List.length_cons]
              have short := later extra (place.advance (extra + 1) (c :: rest))
              omega
          | none =>
              rw [characters_of_not_join join, List.length_cons, List.length_cons]
              have short := later (logical trigraphs c rest).extra
                (place.advance ((logical trigraphs c rest).extra + 1) (c :: rest))
              omega

end Normalization

namespace Source

variable {raw name : Text} {trigraphs : Bool} {source : Source}

/-- A source that is made from bytes is made from the text that they decode to. -/
theorem exists_decoded (made : ofBytes raw name trigraphs = .ok source) :
    ∃ text, Encoding.decode raw = .ok text ∧ source = ofDecoded trigraphs text := by
  unfold ofBytes at made
  cases decoded : Encoding.decode raw with
  | error cause => rw [decoded] at made; cases made
  | ok text =>
      rw [decoded] at made
      cases made
      exact ⟨text, rfl, rfl⟩

/-- No logical character is a carriage return. -/
theorem return_notMem_text (made : ofBytes raw name trigraphs = .ok source) : '\r' ∉ source.text := by
  obtain ⟨text, -, rfl⟩ := exists_decoded made
  exact fun present => (Normalization.mem_characters _ present).1 rfl

/-- The logical characters of a source that is made from bytes are bytes, and none of them is a
carriage return. -/
theorem mem_text_ofBytes (areBytes : raw.IsBytes) (made : ofBytes raw name trigraphs = .ok source) :
    source.text.IsBytes ∧ '\r' ∉ source.text := by
  refine ⟨fun c present => ?_, return_notMem_text made⟩
  obtain ⟨text, decoded, rfl⟩ := exists_decoded made
  rcases (Normalization.mem_characters c present).2 with inside | rfl | ⟨-, small⟩
  · exact Encoding.isBytes_decode areBytes decoded c inside
  · decide
  · exact small

end Source

end CPreprocessor
