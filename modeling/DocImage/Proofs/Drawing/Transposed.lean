import Mathlib.Tactic
import DocImage.Drawing.DrawnSize
import DocImage.Proofs.Drawing.Rounding

/-!
Width and height are treated alike.

* `Binary64.max_right_comm`, `Binary64.min_right_comm`: it does not matter in which order limits are
  raised or lowered, not even where some of them are infinite or no numbers. What is no number
  counts for nothing wherever it stands.
* `Drawing.scale_transpose`: so an image that lies on its side, with its bounds, has the same
  factor.
* `Drawing.drawnSize_transpose`: it is drawn on its side.
-/

namespace DocImage

namespace Binary64

/-! ### Limits in any order -/

protected lemma max_comm (x y : Binary64) : max x y = max y x := by
  cases x <;> cases y <;> try rfl
  rw [max_finite, max_finite, sup_comm]

protected lemma min_comm (x y : Binary64) : min x y = min y x := by
  cases x <;> cases y <;> try rfl
  rw [min_finite, min_finite, inf_comm]

protected lemma max_assoc (x y z : Binary64) : max (max x y) z = max x (max y z) := by
  -- an infinite one is above all others, so that only three finite numbers are left
  cases x <;> cases y <;> cases z <;> try rfl
  rw [max_finite, max_finite, max_finite, max_finite, sup_assoc]

protected lemma max_right_comm (x y z : Binary64) : max (max x y) z = max (max x z) y := by
  rw [Binary64.max_assoc, Binary64.max_comm y z, Binary64.max_assoc]

protected lemma min_right_comm (x y z : Binary64) : min (min x y) z = min (min x z) y := by
  rw [Binary64.min_assoc, Binary64.min_comm y z, Binary64.min_assoc]

end Binary64

/-! ### Images on their side -/

/-- The size of an image that lies on its side. -/
def Size.transpose (size : Size) : Size :=
  ⟨size.height, size.width⟩

/-- The bounds on an image that lies on its side. -/
def Bounds.transpose (bounds : Bounds) : Bounds :=
  { bounds with
    minWidth := bounds.minHeight
    minHeight := bounds.minWidth
    maxWidth := bounds.maxHeight
    maxHeight := bounds.maxWidth }

lemma Size.longEdge_transpose (size : Size) : size.transpose.longEdge = size.longEdge :=
  max_comm _ _

lemma Size.isPositive_transpose (size : Size) : size.transpose.isPositive = size.isPositive :=
  Bool.and_comm _ _

namespace Drawing

/-- The square that stands for an image of unknown size looks the same on its side. -/
lemma workingSize_transpose (intrinsic : Option Size) (defaultEdge : Nat) :
    workingSize (intrinsic.map Size.transpose) defaultEdge =
      (workingSize intrinsic defaultEdge).transpose := by
  cases intrinsic with
  | none => rfl
  | some size =>
      rw [Option.map_some, workingSize, workingSize, size.isPositive_transpose]
      split_ifs <;> rfl

section Limits

variable (size : Size) (bounds : Option Bounds)

lemma lowerLimit_transpose :
    lowerLimit size.transpose (bounds.map Bounds.transpose) = lowerLimit size bounds := by
  cases bounds with
  | none => rw [Option.map_none, lowerLimit, lowerLimit, size.longEdge_transpose]
  | some b =>
      rw [Option.map_some, lowerLimit, lowerLimit, size.longEdge_transpose]
      exact Binary64.max_right_comm _ _ _

lemma lowered_right_comm (limit : Binary64) (bound bound' : Option Nat) (edge edge' : Nat) :
    lowered (lowered limit bound edge) bound' edge' =
      lowered (lowered limit bound' edge') bound edge := by
  cases bound <;> cases bound' <;> try rfl
  exact Binary64.min_right_comm _ _ _

lemma upperLimit_transpose (allowUpscale : Bool) :
    upperLimit size.transpose (bounds.map Bounds.transpose) allowUpscale =
      upperLimit size bounds allowUpscale := by
  cases bounds with
  | none => rfl
  | some b =>
      rw [Option.map_some, upperLimit, upperLimit, size.longEdge_transpose]
      exact lowered_right_comm _ _ _ _ _

/-- The wanted factor is that of the longer edge, whichever that is. -/
lemma scale_transpose (allowUpscale : Bool) :
    scale size.transpose (bounds.map Bounds.transpose) allowUpscale =
      scale size bounds allowUpscale := by
  have hwanted : wantedScale size.transpose allowUpscale = wantedScale size allowUpscale := by
    rw [wantedScale, wantedScale, size.longEdge_transpose]
  rw [scale, scale, hwanted, upperLimit_transpose, lowerLimit_transpose]

end Limits

/-- **Width and height are treated alike.** For any size of an image, known or not, with zeros or
without, and any bounds: if the image lies on its side, and its bounds with it, it is drawn on its
side, with the same two edges. -/
theorem drawnSize_transpose (intrinsic : Option Size) (bounds : Option Bounds) (defaultEdge : Nat)
    (allowUpscale : Bool) :
    drawnSize (intrinsic.map Size.transpose) (bounds.map Bounds.transpose) defaultEdge
        allowUpscale =
      (drawnSize intrinsic bounds defaultEdge allowUpscale).transpose := by
  rw [drawnSize, drawnSize, workingSize_transpose, scale_transpose]
  rfl

end Drawing

end DocImage
