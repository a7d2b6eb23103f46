import DocImage.Files.Access
import DocImage.Image.Svg

/-!
The size of an image of unknown format. The formats are tried in a fixed order, each from the
beginning of the stream; the first whose signature is there decides. A read that fails leaves
the size unknown.
-/

namespace DocImage

/-- The tests in their order. -/
def headerTests : List HeaderTest :=
  [pngHeader.test, gifHeader.test, bmpHeader.test, Jpeg.test, Svg.test]

/-- The size that the first recognized format tells. -/
def firstRecognized (s : ByteStream) : List HeaderTest → Except ReadFailure (Option Size)
  | [] => .ok none
  | test :: tests => do
    match ← test s with
    | (.recognized size, _) => .ok size
    | (.other, s) => firstRecognized s tests

/-- The size of the image in a stream, if it can be told. -/
def probe (s : ByteStream) : Option Size :=
  match firstRecognized s headerTests with
  | .ok size => size
  | .error _ => none

/-- The size of the image that some bytes hold. -/
def probeBytes (bytes : Bytes) : Option Size :=
  probe (.ofBytes bytes)

/-- The most bytes that one read of a file delivers. -/
def fileBuffer : Nat := 8 * 1024

/-- The stream over the contents of a file, which pass through a buffer. -/
def ByteStream.ofFile (contents : Bytes) : ByteStream where
  data := contents.toArray
  limit := fileBuffer

/-- The size of the image in the file at a path. -/
def probePath (tree : FileTree) (path : Path) : Option Size :=
  match tree.read path with
  | .ok contents => probe (.ofFile contents)
  | .error _ => none

/-- The size of the image in the file that is opened at a path. -/
def Accesses.imageSize? (files : Accesses) (path : Path) : Option Size :=
  match files.opened with
  | .ok tree => probePath tree path
  | .error _ => none

end DocImage
