import DocImage.Image.Header
import DocImage.Drawing.Size
import DocImage.Text.Character
import DocImage.Text.Encoding

/-!
The sizes of SVG images. The first three lines are searched, joined without their line ends,
and at most 64 KiB: they must hold `<svg` in any letter case. The width is the number in the
first pair of double quotes behind the first occurrence of `width`, and the height likewise;
without two usable numbers the image counts as a square of 64 pixels.
-/

namespace DocImage.Svg

/-- The size of an image that does not tell its size. -/
def fallbackSize : Size := ⟨64, 64⟩

/-- The most bytes that are searched. -/
def headLimit : Nat := 64 * 1024

/-- The number of lines that are searched. -/
def headLines : Nat := 3

/-- The byte before a line end that does not belong to the line. -/
def carriageReturn : UInt8 := 0x0D

/-- The first lines of some bytes, joined, without the line ends and the carriage returns
before them. -/
def joinLines (bytes : Bytes) : Bytes :=
  ((bytes.splitOn ByteStream.lineFeed).take headLines).flatMap (dropEnd (· == carriageReturn))

/-- Whether the text begins with `p`. -/
def startsWith (p s : Text) : Bool :=
  (after? p s).isSome

/-- The text from the first occurrence of a name on, which is searched in any letter case. -/
def fromName? (name s : Text) : Option Text :=
  match breakAt (startsWith name) (foldCase s) with
  | (_, []) => none
  | (before, _) => some (s.drop before.length)

/-- The text in the first pair of double quotes. -/
def quoted? (s : Text) : Option Text :=
  match (s.dropWhile (· != '"')) with
  | [] => none
  | _ :: s =>
    match s.dropWhile (· != '"') with
    | [] => none
    | _ :: _ => some (s.takeWhile (· != '"'))

/-- The number of pixels under a name. -/
def edge? (name s : Text) : Option Nat := do
  let value ← quoted? (← fromName? name s)
  Numeral.readPositive? (withoutUnits ['p', 'x', '%'] value)

/-- What the first lines of an image say about its size. -/
def verdict (s : Text) : Verdict :=
  match fromName? ['<', 's', 'v', 'g'] s with
  | none => .other
  | some _ =>
    match edge? ['w', 'i', 'd', 't', 'h'] s, edge? ['h', 'e', 'i', 'g', 'h', 't'] s with
    | some width, some height => .recognized (some ⟨width, height⟩)
    | _, _ => .recognized (some fallbackSize)

/-- The test for SVG. -/
def test : HeaderTest := fun s => do
  let (bytes, s) ← (s.seek 0).readHead headLimit headLines
  return (verdict (decodeText (joinLines bytes)), s)

end DocImage.Svg
