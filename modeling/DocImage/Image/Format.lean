import DocImage.Files.Path
import DocImage.Text.Character

/-!
The format of an image file as its name tells it. Only the extension counts, in any letter
case.
-/

namespace DocImage

/-- An image format, or none that is known. -/
inductive ImageFormat where
  | png
  | jpeg
  | gif
  | svg
  | bmp
  | binary
deriving DecidableEq

namespace ImageFormat

/-- The format of files with the given extension. -/
def ofExtension (extension : Bytes) : ImageFormat :=
  match (foldCaseBytes extension).map fun b => Char.ofNat b.toNat with
  | ['p', 'n', 'g'] => png
  | ['j', 'p', 'g'] | ['j', 'p', 'e', 'g'] => jpeg
  | ['g', 'i', 'f'] => gif
  | ['s', 'v', 'g'] => svg
  | ['b', 'm', 'p'] => bmp
  | _ => binary

/-- The format of the file at a path. -/
def ofPath (path : Path) : ImageFormat :=
  match path.extension? with
  | some extension => ofExtension extension
  | none => binary

/-- The name of a format in a data URI. -/
def mimeType : ImageFormat → Text
  | png => "image/png".toList
  | jpeg => "image/jpeg".toList
  | gif => "image/gif".toList
  | svg => "image/svg+xml".toList
  | bmp => "image/bmp".toList
  | binary => "application/octet-stream".toList

/-- Whether files of a format are written into a data URI as text. -/
def isInlineText : ImageFormat → Bool
  | svg => true
  | _ => false

end ImageFormat

end DocImage
