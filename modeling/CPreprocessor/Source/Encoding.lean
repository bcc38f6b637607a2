/-
# Encodings of a source

A source is read as bytes. A UTF-8 byte-order mark is dropped; a source that
starts with a UTF-16 byte-order mark is turned into UTF-8; any other source is
taken as it is, valid UTF-8 or not.
-/
import CPreprocessor.Text

namespace CPreprocessor

/-- Why a source that starts with a UTF-16 byte-order mark is no UTF-16 text. -/
inductive EncodingError where
  /-- A last byte is left over. -/
  | oddByteCount
  /-- The text ends after the first half of a surrogate pair. -/
  | truncatedPair
  /-- One half of a surrogate pair stands alone. -/
  | unpairedSurrogate
  deriving DecidableEq, Repr

namespace EncodingError

/-- The words for an encoding error in messages. -/
def message : EncodingError → Text
  | .oddByteCount => "odd byte count".toList
  | .truncatedPair => "truncated surrogate pair".toList
  | .unpairedSurrogate => "unpaired surrogate".toList

end EncodingError

namespace Encoding

/-- The order of the two bytes of a UTF-16 unit. -/
inductive ByteOrder where
  | littleEndian
  | bigEndian
  deriving DecidableEq, Repr

/-- The unit that two successive bytes form. -/
def ByteOrder.unit (order : ByteOrder) (a b : Char) : Nat :=
  match order with
  | .littleEndian => b.toNat * 256 + a.toNat
  | .bigEndian => a.toNat * 256 + b.toNat

/-- First halves of surrogate pairs. -/
def isHighSurrogate (unit : Nat) : Bool :=
  0xD800 ≤ unit && unit ≤ 0xDBFF

/-- Second halves of surrogate pairs. -/
def isLowSurrogate (unit : Nat) : Bool :=
  0xDC00 ≤ unit && unit ≤ 0xDFFF

/-- The UTF-8 bytes of a scalar value. -/
def utf8 (scalar : Nat) : Text :=
  if scalar < 0x80 then
    [Char.ofNat scalar]
  else if scalar < 0x800 then
    [Char.ofNat (0xC0 + scalar / 0x40), Char.ofNat (0x80 + scalar % 0x40)]
  else if scalar < 0x10000 then
    [Char.ofNat (0xE0 + scalar / 0x1000), Char.ofNat (0x80 + scalar / 0x40 % 0x40),
      Char.ofNat (0x80 + scalar % 0x40)]
  else
    [Char.ofNat (0xF0 + scalar / 0x40000), Char.ofNat (0x80 + scalar / 0x1000 % 0x40),
      Char.ofNat (0x80 + scalar / 0x40 % 0x40), Char.ofNat (0x80 + scalar % 0x40)]

/-- The scalar values of a sequence of UTF-16 bytes, or the first error in it. -/
def utf16Scalars (order : ByteOrder) : Text → Except EncodingError (List Nat)
  | [] => .ok []
  | [_] => .error .oddByteCount
  | a :: b :: rest =>
    let unit := order.unit a b
    if isHighSurrogate unit then
      match rest with
      | c :: d :: after =>
        let low := order.unit c d
        if isLowSurrogate low then
          let scalar := 0x10000 + (unit - 0xD800) * 0x400 + (low - 0xDC00)
          (utf16Scalars order after).map (scalar :: ·)
        else
          .error .unpairedSurrogate
      | _ => .error .truncatedPair
    else if isLowSurrogate unit then
      .error .unpairedSurrogate
    else
      (utf16Scalars order rest).map (unit :: ·)

/-- UTF-16 bytes after their byte-order mark, as UTF-8. An odd number of bytes is
refused before any unit is looked at. -/
def utf16ToUtf8 (order : ByteOrder) (bytes : Text) : Except EncodingError Text :=
  if bytes.length % 2 ≠ 0 then
    .error .oddByteCount
  else
    (utf16Scalars order bytes).map (·.flatMap utf8)

/-- A source as the preprocessor works on it: without a byte-order mark, and in UTF-8
when the mark announced UTF-16. -/
def decode : Text → Except EncodingError Text
  | '\xef' :: '\xbb' :: '\xbf' :: rest => .ok rest
  | '\xff' :: '\xfe' :: rest => utf16ToUtf8 .littleEndian rest
  | '\xfe' :: '\xff' :: rest => utf16ToUtf8 .bigEndian rest
  | raw => .ok raw

end Encoding

end CPreprocessor
