import DocImage.Files.Error
import DocImage.Image.Format
import DocImage.Text.Base64
import DocImage.Text.Encoding
import DocImage.Text.Percent

/-!
The addresses under which an image file can be shown: a data URI, which holds the contents
themselves, or a file URI, which holds the path. Formats that are text go into a data URI as
percent-coded text, all others in base64.
-/

namespace DocImage

/-- Why there is no address for an image. -/
inductive AddressError where
  | file (cause : FileError)
  /-- The path does not begin at the root. -/
  | noFileUri (path : Path)
deriving DecidableEq

/-- The wording of an error. -/
def AddressError.message : AddressError → Text
  | file cause => "I/O error: ".toList ++ cause.message
  | noFileUri path => "Cannot build file URI for ".toList ++ path.display

/-- The file URI of an absolute path. -/
def fileUri? (path : Path) : Option Text :=
  if Path.isAbsolute path then
    let parts := (Path.components path).map fun name =>
      '/' :: Percent.encode Percent.isPathByte name
    some ("file://".toList ++ if parts = [] then ['/'] else parts.flatten)
  else none

/-- The data URI of an image with the given format and contents. -/
def dataUri (format : ImageFormat) (contents : Bytes) : Text :=
  "data:".toList ++ format.mimeType ++
    if format.isInlineText then
      ";utf8,".toList ++ Percent.encode Percent.isUnreserved (Utf8.encode (decodeText contents))
    else
      ";base64,".toList ++ Base64.encode contents

end DocImage
