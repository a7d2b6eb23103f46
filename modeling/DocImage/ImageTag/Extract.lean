import DocImage.ImageTag.Basic
import DocImage.ImageTag.Summary
import DocImage.Text.Encoding

/-!
Taking the image out of a comment. `extract` gives what the first image of the first summary
asks for and the comment without any image of that summary. A comment with malformed markup
before the end of its summary, without an image, or whose first image asks for nothing, stays
as it is.

Images are cut out by byte positions. A byte-order mark at the beginning is not counted in
them, so in a comment that begins with one every cut ends three bytes early. Such a cut may
fall inside a character or overlap the one before it, and then nothing can be taken out:
`CutError`.
-/

namespace DocImage

open Markup

/-- Why a stretch of text cannot be cut out. -/
inductive CutError where
  /-- One of its ends is not between two characters of the text. -/
  | insideCharacter
  /-- It does not lie behind the stretches cut out before it. -/
  | outOfOrder
deriving DecidableEq

/-! ### Cutting at byte positions -/

/-- `cutAt` with the characters already passed, the last one first. -/
def cutFrom (passed : Text) : Nat → Text → Except CutError (Text × Text)
  | 0, s => .ok (passed.reverse, s)
  | _ + 1, [] => .error .insideCharacter
  | n + 1, c :: s =>
    if c.utf8Size ≤ n + 1 then cutFrom (c :: passed) (n + 1 - c.utf8Size) s
    else .error .insideCharacter
termination_by _ s => s

/-- The text in two parts, the first with the given number of bytes. -/
def cutAt (n : Nat) (s : Text) : Except CutError (Text × Text) :=
  cutFrom [] n s

/-- A text without the given stretches, given from the position `pos` on. -/
def removeFrom (pos : Nat) : List Span → Text → Except CutError Text
  | [], s => .ok s
  | span :: spans, s =>
    if span.start < pos ∨ span.stop < span.start then .error .outOfOrder
    else do
      let (kept, s) ← cutAt (span.start - pos) s
      let (_, s) ← cutAt (span.stop - span.start) s
      return kept ++ (← removeFrom span.stop spans s)

/-- A text without the given stretches, which must follow each other. -/
def remove (spans : List Span) (s : Text) : Except CutError Text :=
  removeFrom 0 spans s

/-- The first place of a `<` from a position on. -/
def nextMarkup? (bytes : Array UInt8) (pos : Nat) : Option Nat :=
  if h : pos < bytes.size then
    if bytes[pos] = 0x3C then some pos else nextMarkup? bytes (pos + 1)
  else none
termination_by bytes.size - pos

/-- Where the markup at a position of a text begins: at the position itself or one before it, if
there is a `<`, and otherwise at the next `<`. -/
def markupStart (bytes : Array UInt8) (pos : Nat) : Nat :=
  let pos := min pos bytes.size
  if bytes[pos]? = some 0x3C then pos
  else if 0 < pos ∧ bytes[pos - 1]? = some 0x3C then pos - 1
  else (nextMarkup? bytes pos).getD pos

/-! ### Extraction -/

/-- A comment taken apart. -/
structure Extraction where
  /-- What its image asks for. -/
  tag : Option ImageTag
  /-- The comment without the images of its summary. -/
  sanitized : Text
deriving DecidableEq

/-- A text without the byte-order mark at its beginning. -/
def withoutMark : Text → Text
  | c :: s => if c = byteOrderMark then s else c :: s
  | [] => []

/-- What the first of some image elements asks for. -/
def requested? (images : List ImageElement) : Option ImageTag :=
  images.head?.bind fun image => ImageTag.ofAttributes? (Attribute.readAll image.attributes)

/-- The stretch of the whole comment that is cut out for an image element. -/
def cutFor (bytes : Array UInt8) (image : ImageElement) : Span :=
  ⟨markupStart bytes image.span.start, image.span.stop⟩

/-- What the image of a comment asks for, and the comment without the images of its summary. -/
def extract (comment : Text) : Except CutError Extraction :=
  match Summary.images? (withoutMark comment) with
  | none => .ok ⟨none, comment⟩
  | some images =>
    match requested? images with
    | none => .ok ⟨none, comment⟩
    | some tag => do
      let bytes := (Utf8.encode comment).toArray
      return ⟨some tag, ← remove (images.map (cutFor bytes)) comment⟩

/-- Whether a comment asks for an image. -/
def hasImage (comment : Text) : Except CutError Bool :=
  (extract comment).map fun e => e.tag.isSome

end DocImage
