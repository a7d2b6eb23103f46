import DocImage.Text.Character
import DocImage.Text.Numeral

/-!
Sizes in pixels, bounds on the size at which an image is drawn, and the pixel counts in which they
are written: a positive numeral, white space around it, and any run of the letters of `px` behind
it.
-/

namespace DocImage

/-- A width and a height in pixels. -/
structure Size where
  width : Nat
  height : Nat
deriving DecidableEq

namespace Size

/-- The larger of the two edges. -/
def longEdge (size : Size) : Nat :=
  max size.width size.height

/-- Whether both edges have at least one pixel. -/
def isPositive (size : Size) : Bool :=
  decide (0 < size.width) && decide (0 < size.height)

/-- The size with the given edges, if both have at least one pixel. -/
def ofEdges? (width height : Int) : Option Size :=
  if 0 < width ∧ 0 < height then some ⟨width.toNat, height.toNat⟩ else none

/-- The square with the given edge. -/
def square (edge : Nat) : Size :=
  ⟨edge, edge⟩

end Size

/-- Optional bounds on a drawn size. They are independent of each other and may contradict each
other. -/
structure Bounds where
  minEdge : Option Nat := none
  maxEdge : Option Nat := none
  minWidth : Option Nat := none
  minHeight : Option Nat := none
  maxWidth : Option Nat := none
  maxHeight : Option Nat := none
  allowUpscale : Bool := false
deriving DecidableEq

/-- A trimmed text without the given unit characters at its end, and without the white space
before them. -/
def withoutUnits (units : List Char) (s : Text) : Text :=
  trimEnd (dropEnd (fun c => units.contains c) (trim s))

/-- A positive number of pixels. -/
def pixels? (s : Text) : Option Nat :=
  Numeral.readPositive? (withoutUnits ['p', 'x', 'P', 'X'] s)

end DocImage
