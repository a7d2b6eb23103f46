import Mathlib.Tactic
import DocImage.Proofs.Drawing.ExactFactor

/-!
The proportions of an image, which scaling keeps up to rounding.

* `abs_scaleEdge_sub_lt`: an edge is drawn less than one pixel away from its exact product, unless
  it is cut off at the largest one. That it has at least one pixel does no harm, because a product
  that is rounded to nothing is at most a little more than a half.
* `drawnSize_keeps_proportions`: so both edges are near one common scaling of the image.
-/

namespace DocImage.Drawing

/-- An edge that is not cut off is drawn less than one pixel away from its exact product. -/
lemma abs_scaleEdge_sub_lt {edge : Nat} (hpos : 0 < edge) (he : edge ≤ maxEdge) {q : Rat}
    (hq : 0 < q) (hlt : scaleEdge edge (Binary64.round q) < maxEdge) :
    |(scaleEdge edge (Binary64.round q) : Rat) - edge * q| < 1 := by
  obtain ⟨n, hn, hnear, -⟩ := scaleEdge_round he hq.le
  rcases le_or_gt 1 n with hone | hzero
  · have hdrawn : (scaleEdge edge (Binary64.round q) : Int) = n := by omega
    have hcast : (scaleEdge edge (Binary64.round q) : Rat) = n := by exact_mod_cast hdrawn
    rw [hcast]
    exact hnear.trans_lt (by norm_num)
  · -- the one pixel that is always drawn, where the product is rounded to nothing
    have hdrawn : scaleEdge edge (Binary64.round q) = 1 := by omega
    have hproduct : 0 < edge * q := mul_pos (by exact_mod_cast hpos) hq
    have hn' : (n : Rat) ≤ 0 := by exact_mod_cast Int.lt_add_one_iff.mp hzero
    have hlo := (abs_le.mp hnear).1
    rw [hdrawn, Nat.cast_one, abs_lt]
    constructor <;> linarith

/-- Two numbers near a common multiple of two others are nearly in their proportion. -/
lemma abs_cross_sub_lt {w h w' h' q : Rat} (hw : 0 < w) (hh : 0 < h) (hw' : |w' - w * q| < 1)
    (hh' : |h' - h * q| < 1) : |h' * w - w' * h| < w + h :=
  calc |h' * w - w' * h| = |(h' - h * q) * w - (w' - w * q) * h| := by ring_nf
    _ ≤ |(h' - h * q) * w| + |(w' - w * q) * h| := abs_sub _ _
    _ = |h' - h * q| * w + |w' - w * q| * h := by
        rw [abs_mul, abs_mul, abs_of_pos hw, abs_of_pos hh]
    _ < 1 * w + 1 * h := by gcongr
    _ = w + h := by ring

/-- **Proportions are kept up to rounding.** For a size without a zero, whose edges are numbers of
32 bits, both drawn edges are less than one pixel away from one common scaling of the image, unless
one of them is cut off at the largest number of 32 bits. So the products of each drawn edge with the
other edge of the image differ by less than the sum of its edges. -/
theorem drawnSize_keeps_proportions (intrinsic : Option Size) (bounds : Option Bounds)
    (defaultEdge : Nat) (allowUpscale : Bool) (size : Size)
    (hsize : workingSize intrinsic defaultEdge = size) (hpos : size.isPositive = true)
    (hmax : size.longEdge ≤ maxEdge) :
    let drawn := drawnSize intrinsic bounds defaultEdge allowUpscale
    drawn.width < maxEdge → drawn.height < maxEdge →
      |(drawn.height * size.width - drawn.width * size.height : Int)| < size.width + size.height ∧
      ∃ q : Rat, 0 < q ∧ |drawn.width - size.width * q| < 1 ∧
        |drawn.height - size.height * q| < 1 := by
  intro drawn hwidth hheight
  have hq := exactFactor_pos size bounds
  have hnear : ∀ e : Edge, e.of drawn < maxEdge →
      |(e.of drawn : Rat) - e.of size * exactFactor size bounds| < 1 := by
    intro e hlt
    have hdrawn := Edge.of_drawnSize hsize hpos bounds allowUpscale e
    rw [hdrawn] at hlt ⊢
    exact abs_scaleEdge_sub_lt (e.of_pos hpos) ((e.of_le_longEdge size).trans hmax) hq hlt
  have hw := hnear .width hwidth
  have hh := hnear .height hheight
  have hcross := abs_cross_sub_lt (Edge.width.cast_of_pos hpos) (Edge.height.cast_of_pos hpos) hw hh
  exact ⟨by exact_mod_cast hcross, _, hq, hw, hh⟩

/-- A line of the largest width but one, drawn a hundred pixels long: its height would be next to
nothing and is one pixel. -/
theorem drawnSize_keeps_proportions_of_line :
    let bounds : Option Bounds := some { minHeight := some 0, maxEdge := some 100 }
    drawnSize (some ⟨0xFFFFFFFE, 1⟩) bounds 96 false = ⟨100, 1⟩ ∧
      |(1 * 0xFFFFFFFE - 100 * 1 : Int)| < 0xFFFFFFFE + 1 ∧
      ∃ q : Rat, 0 < q ∧ |100 - 0xFFFFFFFE * q| < 1 ∧ |1 - 1 * q| < 1 := by
  intro bounds
  have hdrawn : drawnSize (some ⟨0xFFFFFFFE, 1⟩) bounds 96 false = ⟨100, 1⟩ := by decide +kernel
  have hkept := drawnSize_keeps_proportions (some ⟨0xFFFFFFFE, 1⟩) bounds 96 false ⟨0xFFFFFFFE, 1⟩
    rfl rfl (by decide)
  simp only [hdrawn] at hkept
  obtain ⟨hcross, q, hq, hw, hh⟩ := hkept (by decide) (by decide)
  exact ⟨hdrawn, hcross, q, hq, by exact_mod_cast hw, by exact_mod_cast hh⟩

end DocImage.Drawing
