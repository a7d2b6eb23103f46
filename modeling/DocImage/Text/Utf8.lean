import DocImage.Text.Basic

/-!
UTF-8. `Utf8.encode` writes a text as bytes. `Utf8.leading` looks at the beginning of a byte
sequence: it is a whole character, or a malformed beginning, and then what counts as one fault
is the longest piece that some character begins with (one byte if there is none). Both readers
rest on it: `Utf8.decodeLossy` puts U+FFFD for every fault, `Utf8.decode?` accepts no fault.
-/

namespace DocImage

/-- The character that stands for a fault in decoded text. -/
def replacement : Char := '\uFFFD'

namespace Utf8

/-- The bytes of a text. -/
def encode (s : Text) : Bytes :=
  s.flatMap String.utf8EncodeChar

/-- The number of bytes of a text. -/
def length (s : Text) : Nat :=
  (encode s).length

theorem length_append (s t : Text) : length (s ++ t) = length s + length t := by
  simp [length, encode]

theorem length_cons (c : Char) (s : Text) : length (c :: s) = c.utf8Size + length s := by
  simp [length, encode, String.length_utf8EncodeChar]

/-- How many bytes follow the given first byte in a character; `none` if no character begins
with it. -/
def trailCount (first : UInt8) : Option Nat :=
  if first < 0x80 then some 0
  else if first < 0xC2 then none
  else if first < 0xE0 then some 1
  else if first < 0xF0 then some 2
  else if first < 0xF5 then some 3
  else none

/-- Whether a byte continues a character. -/
def isTrail (b : UInt8) : Bool :=
  0x80 ≤ b && b < 0xC0

/-- Whether a byte may be the second one after the given first byte. The narrower ranges keep
out longer spellings of short characters, surrogates, and numbers above U+10FFFF. -/
def isSecond (first b : UInt8) : Bool :=
  isTrail b &&
    if first == 0xE0 then 0xA0 ≤ b
    else if first == 0xED then b < 0xA0
    else if first == 0xF0 then 0x90 ≤ b
    else if first == 0xF4 then b < 0x90
    else true

/-- The longest run of at most `n` bytes that can follow the given first byte. -/
def trail (first : UInt8) (n : Nat) : Bytes → Bytes
  | [] => []
  | b :: l => if n ≠ 0 ∧ isSecond first b then b :: (l.take (n - 1)).takeWhile isTrail else []

/-- The six low bits of every trailing byte, after the bits of the first byte. -/
def scalarValue (first : UInt8) (bytes : Bytes) : Nat :=
  let high :=
    match bytes.length with
    | 0 => first.toNat
    | 1 => first.toNat - 0xC0
    | 2 => first.toNat - 0xE0
    | _ => first.toNat - 0xF0
  bytes.foldl (fun v b => 64 * v + (b.toNat - 0x80)) high

/-- The character at the beginning of the bytes, or `none` for a fault, with the number of its
bytes. -/
def leading : Bytes → Option Char × Nat
  | [] => (none, 1)
  | first :: l =>
    match trailCount first with
    | none => (none, 1)
    | some n =>
      let bytes := trail first n l
      if bytes.length = n then (some (Char.ofNat (scalarValue first bytes)), n + 1)
      else (none, bytes.length + 1)

/-- The text of the bytes, with U+FFFD for every fault. -/
def decodeLossy (bytes : Bytes) : Text :=
  (chop leading bytes).map fun c => c.getD replacement

/-- The text of the bytes, if they have no fault. -/
def decode? (bytes : Bytes) : Option Text :=
  (chop leading bytes).mapM id

end Utf8

end DocImage
