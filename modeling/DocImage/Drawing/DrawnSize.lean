import DocImage.Drawing.Size
import DocImage.Drawing.Binary64

/-!
The size at which an image is drawn. Both edges are scaled by one factor: the image's own size
is wanted, every lower bound raises a lower limit and every upper bound lowers an upper limit
on the factor, the wish is brought between the limits, and where they contradict each other the
lower one wins. An edge is rounded to whole pixels, half-way to the even number, and is never
less than one pixel.
-/

namespace DocImage.Drawing

/-- The edge of the square that stands for an image of unknown size, unless settings say
otherwise. -/
def defaultEdge : Nat := 96

/-- The lower bound on an edge that has no explicit one. -/
def floorEdge : Nat := 32

/-- The largest edge, in pixels. -/
def maxEdge : Nat := 0xFFFFFFFF

/-- The size that is scaled: the image's own, or a square if that is unknown or empty. -/
def workingSize (intrinsic : Option Size) (defaultEdge : Nat) : Size :=
  match intrinsic with
  | some size => if size.isPositive then size else .square defaultEdge
  | none => .square defaultEdge

/-- The lower limit on the factor. Without bounds only the longer edge has one. -/
def lowerLimit (size : Size) : Option Bounds → Binary64
  | none => .max (.finite 0) (.quotient floorEdge size.longEdge)
  | some bounds =>
    .max
      (.max
        (.max (.finite 0) (.quotient (bounds.minEdge.getD floorEdge) size.longEdge))
        (.quotient (bounds.minWidth.getD floorEdge) size.width))
      (.quotient (bounds.minHeight.getD floorEdge) size.height)

/-- A limit lowered by an upper bound on an edge, if there is one. -/
def lowered (limit : Binary64) (bound : Option Nat) (edge : Nat) : Binary64 :=
  match bound with
  | some px => limit.min (.quotient px edge)
  | none => limit

/-- The upper limit on the factor. -/
def upperLimit (size : Size) (bounds : Option Bounds) (allowUpscale : Bool) : Binary64 :=
  let limit : Binary64 := if allowUpscale then .infinite else .finite 1
  match bounds with
  | none => limit
  | some bounds =>
    lowered (lowered (lowered limit bounds.maxEdge size.longEdge) bounds.maxWidth size.width)
      bounds.maxHeight size.height

/-- The factor that leaves the image as it is, brought down to one unless enlarging is allowed.
-/
def wantedScale (size : Size) (allowUpscale : Bool) : Binary64 :=
  match Binary64.quotient size.longEdge size.longEdge with
  | .infinite => if allowUpscale then .infinite else .finite 1
  | .finite q => if !allowUpscale && decide (1 < q) then .finite 1 else .finite q
  | .nan => .nan

/-- The factor: the wanted one between its limits, or one if that is not a positive number. -/
def scale (size : Size) (bounds : Option Bounds) (allowUpscale : Bool) : Rat :=
  let wanted := (wantedScale size allowUpscale).min (upperLimit size bounds allowUpscale)
  match (lowerLimit size bounds).max wanted with
  | .finite q => if 0 < q then q else 1
  | .infinite | .nan => 1

/-- An edge multiplied by a factor, in whole pixels. -/
def scaleEdge (edge : Nat) (scale : Rat) : Nat :=
  max 1 (min maxEdge (roundHalfEven (Binary64.product edge scale)).toNat)

/-- The size at which an image is drawn, given its own size if that is known, the bounds, the
edge of the square that stands for an image of unknown size, and whether enlarging is allowed
by default. -/
def drawnSize (intrinsic : Option Size) (bounds : Option Bounds) (defaultEdge : Nat)
    (allowUpscale : Bool) : Size :=
  let size := workingSize intrinsic defaultEdge
  let factor := scale size bounds allowUpscale
  ⟨scaleEdge size.width factor, scaleEdge size.height factor⟩

end DocImage.Drawing
