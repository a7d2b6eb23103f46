import DocImage.Drawing.Size
import DocImage.Image.Stream

/-!
The headers of PNG, GIF, BMP and JPEG images. A test reads its format's signature from the
beginning of the stream; when that is there, no other format is considered, and the size is
read from a fixed place, or in a JPEG from its first frame header. A stream that ends too early
has no size.
-/

namespace DocImage

/-- The outcome of the test for one format. -/
inductive Verdict where
  /-- The signature is not there. -/
  | other
  /-- The signature is there; the size may be missing or unusable all the same. -/
  | recognized (size : Option Size)
deriving DecidableEq

/-- A test for one format. -/
abbrev HeaderTest := ByteStream → Except ReadFailure (Verdict × ByteStream)

/-! ### Numbers in headers -/

/-- The number that bytes write with the most significant one first. -/
def bigEndian (bytes : Bytes) : Nat :=
  bytes.foldl (fun n b => 256 * n + b.toNat) 0

/-- The number that bytes write with the least significant one first. -/
def littleEndian (bytes : Bytes) : Nat :=
  bigEndian bytes.reverse

/-- A 32-bit number read as a signed one. -/
def signed32 (n : Nat) : Int :=
  if n < 0x80000000 then n else n - 0x100000000

/-! ### Sizes at a fixed place -/

/-- Where the size stands in a format that has it at a fixed place. -/
structure FixedHeader where
  /-- The number of bytes at the beginning that must be there. -/
  signatureLength : Nat
  signature : Bytes
  sizeOffset : Nat
  sizeLength : Nat
  /-- The size in the bytes at its place. -/
  size? : Bytes → Option Size

/-- The test for a format with its size at a fixed place. -/
def FixedHeader.test (header : FixedHeader) : HeaderTest := fun s => do
  let (start, s) ← (s.seek 0).readExact header.signatureLength
  match start with
  | none => return (.other, s)
  | some start =>
    if start.take header.signature.length = header.signature then
      let (bytes, s) ← (s.seek header.sizeOffset).readExact header.sizeLength
      return (.recognized (bytes.bind header.size?), s)
    else return (.other, s)

/-- PNG: two signed big-endian 32-bit edges. -/
def pngHeader : FixedHeader where
  signatureLength := 8
  signature := [0x89, 0x50, 0x4E, 0x47]
  sizeOffset := 16
  sizeLength := 8
  size? bytes :=
    Size.ofEdges? (signed32 (bigEndian (bytes.take 4))) (signed32 (bigEndian (bytes.drop 4)))

/-- GIF: two little-endian 16-bit edges. -/
def gifHeader : FixedHeader where
  signatureLength := 3
  signature := [0x47, 0x49, 0x46]
  sizeOffset := 6
  sizeLength := 4
  size? bytes := Size.ofEdges? (littleEndian (bytes.take 2)) (littleEndian (bytes.drop 2))

/-- BMP: two signed little-endian 32-bit edges. The sign of the height tells the order of the
rows, and only its amount counts. -/
def bmpHeader : FixedHeader where
  signatureLength := 2
  signature := [0x42, 0x4D]
  sizeOffset := 18
  sizeLength := 8
  size? bytes :=
    Size.ofEdges? (signed32 (littleEndian (bytes.take 4)))
      (signed32 (littleEndian (bytes.drop 4))).natAbs

/-! ### JPEG -/

namespace Jpeg

/-- Whether a segment with this marker holds the size of a frame. -/
def isFrame (marker : UInt8) : Bool :=
  0xC0 ≤ marker && marker ≤ 0xCF && marker != 0xC4 && marker != 0xC8 && marker != 0xCC

/-- Whether the headers end at this marker. -/
def isLast (marker : UInt8) : Bool :=
  marker == 0xD9 || marker == 0xDA

/-- The size in a frame header, whose first byte is the precision. -/
def frameSize? (bytes : Bytes) : Option Size :=
  Size.ofEdges? (bigEndian (bytes.drop 3)) (bigEndian ((bytes.drop 1).take 2))

/-- The size in the first frame header, from the beginning of a segment on. -/
def segments (s : ByteStream) : Except ReadFailure (Option Size × ByteStream) :=
  match _k₁ : s.readExact 2 with
  | .error e => .error e
  | .ok (some [start, marker], s₁) =>
    if start ≠ 0xFF ∨ isLast marker then .ok (none, s₁)
    else
      match _k₂ : s₁.readExact 2 with
      | .error e => .error e
      | .ok (none, s₂) => .ok (none, s₂)
      | .ok (some length, s₂) =>
        if bigEndian length < 2 then .ok (none, s₂)
        else if isFrame marker then
          match s₂.readExact 5 with
          | .error e => .error e
          | .ok (bytes, s₃) => .ok (bytes.bind frameSize?, s₃)
        else segments (s₂.skip (bigEndian length - 2))
  | .ok (_, s₁) => .ok (none, s₁)
termination_by s.data.size - s.position
decreasing_by
  obtain ⟨hd, hp, -, he⟩ := ByteStream.readExact_spec _k₁
  obtain ⟨hd', hp', -, he'⟩ := ByteStream.readExact_spec _k₂
  have := he (by omega)
  have := he' (by omega)
  simp only [ByteStream.skip, ByteStream.seek, hd, hd', hp'] at *
  omega

/-- The test for JPEG. -/
def test : HeaderTest := fun s => do
  let (start, s) ← (s.seek 0).readExact 2
  if start = some [0xFF, 0xD8] then
    let (size, s) ← segments s
    return (.recognized size, s)
  else return (.other, s)

end Jpeg

end DocImage
