import DocImage.Text.Utf8

/-!
The text of bytes of unknown encoding. A byte-order mark at the beginning chooses the encoding and
is not part of the text; without one the bytes are UTF-8. Only one mark is removed.

UTF-16 is read in either byte order, with U+FFFD for every fault. A fault is a surrogate without its
partner, or an odd byte at the end; a high surrogate and an odd byte at the end are one fault
together.
-/

namespace DocImage

/-! ### UTF-16 -/

/-- Which byte of a 16-bit unit comes first. -/
inductive ByteOrder where
  | little
  | big

/-- The number that two bytes write in the given order. -/
def ByteOrder.unit : ByteOrder → UInt8 → UInt8 → Nat
  | .little, a, b => a.toNat + 256 * b.toNat
  | .big, a, b => 256 * a.toNat + b.toNat

namespace Utf16

/-- Whether a unit is the first half of a pair. -/
def isHigh (u : Nat) : Bool :=
  0xD800 ≤ u && u < 0xDC00

/-- Whether a unit is the second half of a pair. -/
def isLow (u : Nat) : Bool :=
  0xDC00 ≤ u && u < 0xE000

/-- The character that a pair of units stands for. -/
def pair (high low : Nat) : Char :=
  Char.ofNat (0x10000 + 0x400 * (high - 0xD800) + (low - 0xDC00))

/-- The character at the beginning of the bytes, or `none` for a fault, with the number of its
bytes. -/
def leading (order : ByteOrder) : Bytes → Option Char × Nat
  | a :: b :: l =>
    let u := order.unit a b
    if isHigh u then
      match l with
      | c :: d :: _ =>
        let v := order.unit c d
        if isLow v then (some (pair u v), 4) else (none, 2)
      | [_] => (none, 3)
      | [] => (none, 2)
    else if isLow u then (none, 2)
    else (some (Char.ofNat u), 2)
  | _ => (none, 1)

/-- The text of the bytes, with U+FFFD for every fault. -/
def decodeLossy (order : ByteOrder) (bytes : Bytes) : Text :=
  (chop (leading order) bytes).map fun c => c.getD replacement

end Utf16

/-! ### Byte-order marks -/

/-- The byte-order mark as a character. -/
def byteOrderMark : Char := '\uFEFF'

/-- The text of the bytes in the encoding that their byte-order mark chooses, with U+FFFD for
every fault. -/
def decodeText : Bytes → Text
  | 0xEF :: 0xBB :: 0xBF :: l => Utf8.decodeLossy l
  | 0xFF :: 0xFE :: l => Utf16.decodeLossy .little l
  | 0xFE :: 0xFF :: l => Utf16.decodeLossy .big l
  | l => Utf8.decodeLossy l

end DocImage
