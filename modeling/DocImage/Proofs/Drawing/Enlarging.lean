import Mathlib.Tactic
import DocImage.Proofs.Drawing.ExactFactor

/-!
Whether enlarging is allowed makes no difference to the size at which an image is drawn.

* For a size without a zero the factor that is wanted is one, so that it never reaches an upper
  limit that begins there: `scale_eq` says that the factor is the exact one, whatever is allowed.
* The only other size that is worked with is empty (`workingSize_eq_or`), and that is drawn as one
  pixel by any factor (`drawnSize_of_empty`).
* `drawnSize_withUpscale`: so neither of the two flags counts.
-/

namespace DocImage

/-- The bounds with another flag for enlarging. -/
def Bounds.withUpscale (bounds : Bounds) (allow : Bool) : Bounds :=
  { bounds with allowUpscale := allow }

namespace Drawing

/-- The size that is worked with has no zero, or it is empty both ways. -/
lemma workingSize_eq_or (intrinsic : Option Size) (defaultEdge : Nat) :
    (workingSize intrinsic defaultEdge).isPositive = true ∨
      workingSize intrinsic defaultEdge = ⟨0, 0⟩ := by
  have hsquare : (Size.square defaultEdge).isPositive = true ∨
      Size.square defaultEdge = ⟨0, 0⟩ := by
    rcases defaultEdge.eq_zero_or_pos with rfl | hpos
    · exact .inr rfl
    · exact .inl (isPositive_iff.mpr ⟨hpos, hpos⟩)
  cases intrinsic with
  | none => exact hsquare
  | some size =>
      rw [workingSize]
      split_ifs with hpos
      · exact .inl hpos
      · exact hsquare

/-- An image of no size is drawn as one pixel, by whatever factor. -/
lemma drawnSize_of_empty {intrinsic : Option Size} {defaultEdge : Nat}
    (h : workingSize intrinsic defaultEdge = ⟨0, 0⟩) (bounds : Option Bounds)
    (allowUpscale : Bool) : drawnSize intrinsic bounds defaultEdge allowUpscale = ⟨1, 1⟩ := by
  have hedge : ∀ q, scaleEdge 0 q = 1 := fun q => by
    have hproduct : Binary64.product 0 q = 0 := by
      rw [Binary64.product, Nat.cast_zero, zero_mul, Binary64.round_of_nonpos le_rfl]
    have hround : roundHalfEven 0 = 0 := by exact_mod_cast roundHalfEven_intCast 0
    rw [scaleEdge, hproduct, hround]
    rfl
  rw [drawnSize, h]
  exact congrArg₂ Size.mk (hedge _) (hedge _)

/-- **Whether enlarging is allowed makes no difference**, neither by default nor in the bounds. -/
lemma drawnSize_withUpscale (intrinsic : Option Size) (bounds : Option Bounds) (defaultEdge : Nat)
    (allow allowUpscale allowUpscale' : Bool) :
    drawnSize intrinsic (bounds.map (·.withUpscale allow)) defaultEdge allowUpscale =
      drawnSize intrinsic bounds defaultEdge allowUpscale' := by
  rcases workingSize_eq_or intrinsic defaultEdge with hpos | hempty
  · have hfactor : ∀ size, exactFactor size (bounds.map (·.withUpscale allow)) =
        exactFactor size bounds := fun size => by cases bounds <;> rfl
    have hedge : ∀ e : Edge,
        e.of (drawnSize intrinsic (bounds.map (·.withUpscale allow)) defaultEdge allowUpscale) =
          e.of (drawnSize intrinsic bounds defaultEdge allowUpscale') := fun e => by
      rw [Edge.of_drawnSize rfl hpos, Edge.of_drawnSize rfl hpos, hfactor]
    exact congrArg₂ Size.mk (hedge .width) (hedge .height)
  · rw [drawnSize_of_empty hempty, drawnSize_of_empty hempty]

end Drawing

end DocImage
