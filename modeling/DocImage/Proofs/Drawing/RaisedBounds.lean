import Mathlib.Tactic
import DocImage.Proofs.Drawing.HonouredBounds

/-!
Raising a bound never makes an image smaller.

* `Bounds.AtMost` compares bounds edge by edge. A lower bound that is not set counts as the one that
  stands for it, and an upper bound that is not set is above all others.
* `exactFactor_mono`: the exact factor grows with the bounds, whichever of its limits decides it
  before and after. `scaleEdge_mono_right`: rounding keeps this order.
* `drawnSize_mono`: so the drawn size grows with the bounds.
-/

namespace DocImage

open Drawing

/-- The lower bound on an edge, or the one that stands for it. -/
def Bounds.lower (bounds : Bounds) : Edge → Nat
  | .long => bounds.minEdge.getD floorEdge
  | .width => bounds.minWidth.getD floorEdge
  | .height => bounds.minHeight.getD floorEdge

/-- The upper bound on an edge, if there is one. -/
def Bounds.upper? (bounds : Bounds) : Edge → Option Nat
  | .long => bounds.maxEdge
  | .width => bounds.maxWidth
  | .height => bounds.maxHeight

/-- No bound is above the one of the same kind among some others. -/
structure Bounds.AtMost (bounds others : Bounds) : Prop where
  lower : ∀ e, bounds.lower e ≤ others.lower e
  upper : ∀ e, ∀ n' ∈ others.upper? e, ∃ n ∈ bounds.upper? e, n ≤ n'

namespace Drawing

lemma mem_lowerBounds_iff {bounds : Bounds} {bound : EdgeBound} :
    bound ∈ lowerBounds (some bounds) ↔ bounds.lower bound.edge = bound.pixels := by
  obtain ⟨edge, pixels⟩ := bound
  cases edge <;> simp [lowerBounds, Bounds.lower, eq_comm]

lemma mem_upperBounds_iff {bounds : Bounds} {bound : EdgeBound} :
    bound ∈ upperBounds (some bounds) ↔ bounds.upper? bound.edge = some bound.pixels := by
  obtain ⟨edge, pixels⟩ := bound
  cases edge <;> simp [upperBounds, Bounds.upper?]

/-- Of two bounds on one edge the larger one has the larger ratio. -/
lemma ratio_le_ratio (size : Size) {edge : Edge} {n n' : Nat} (h : n ≤ n') :
    (EdgeBound.mk edge n).ratio size ≤ (EdgeBound.mk edge n').ratio size :=
  div_le_div_of_nonneg_right (by exact_mod_cast h) (Nat.cast_nonneg _)

/-! ### The factor grows with the bounds -/

section Factor

variable {bounds others : Bounds} (h : bounds.AtMost others)
include h

lemma leastFactor_mono (size : Size) :
    leastFactor size (some bounds) ≤ leastFactor size (some others) := by
  obtain ⟨bound, hb, hratio⟩ := exists_ratio_eq_leastFactor size (some bounds)
  have hpixels := mem_lowerBounds_iff.mp hb
  calc leastFactor size (some bounds) = bound.ratio size := hratio.symm
    _ ≤ (EdgeBound.mk bound.edge (others.lower bound.edge)).ratio size :=
        ratio_le_ratio size (hpixels ▸ h.lower bound.edge)
    _ ≤ leastFactor size (some others) := ratio_le_leastFactor (mem_lowerBounds_iff.mpr rfl)

lemma cappedFactor_mono (size : Size) :
    cappedFactor size (some bounds) ≤ cappedFactor size (some others) := by
  rcases cappedFactor_eq_one_or size (some others) with hone | ⟨bound, hb, hratio⟩
  · exact hone ▸ cappedFactor_le_one size (some bounds)
  · obtain ⟨n, hn, hle⟩ := h.upper bound.edge _ (mem_upperBounds_iff.mp hb)
    calc cappedFactor size (some bounds) ≤ (EdgeBound.mk bound.edge n).ratio size :=
          cappedFactor_le_ratio (mem_upperBounds_iff.mpr hn)
      _ ≤ bound.ratio size := ratio_le_ratio size hle
      _ = cappedFactor size (some others) := hratio.symm

/-- The exact factor grows with the bounds. A zero among the upper bounds is left out, because the
factor would be one again where that makes it zero. -/
lemma exactFactor_mono {size : Size} (hpos : size.isPositive = true)
    (hset : ∀ e, ∀ n ∈ bounds.upper? e, 1 ≤ n) :
    exactFactor size (some bounds) ≤ exactFactor size (some others) := by
  have hcapped : 0 < cappedFactor size (some bounds) :=
    cappedFactor_pos hpos fun bound hb => hset bound.edge _ (mem_upperBounds_iff.mp hb)
  have hcapped' := hcapped.trans_le (cappedFactor_mono h size)
  rw [exactFactor_eq_max (lt_max_of_lt_right hcapped),
    exactFactor_eq_max (lt_max_of_lt_right hcapped')]
  exact max_le_max (leastFactor_mono h size) (cappedFactor_mono h size)

end Factor

/-- The larger factor makes an edge no smaller. -/
lemma scaleEdge_mono_right (edge : Nat) : Monotone (scaleEdge edge) := by
  intro p q hpq
  have hproduct : Binary64.product edge p ≤ Binary64.product edge q :=
    Binary64.round_mono (mul_le_mul_of_nonneg_left hpq edge.cast_nonneg)
  have hround := roundHalfEven_mono hproduct
  simp only [scaleEdge]
  omega

/-! ### The size that is drawn -/

/-- **Raising bounds never makes an image smaller.** For a size without a zero, and upper bounds
that are all positive where they are set, bounds that are at most some others give an image that is
no wider and no higher than with the others, whatever is said about enlarging. -/
theorem drawnSize_mono (intrinsic : Option Size) (defaultEdge : Nat) (size : Size)
    (hsize : workingSize intrinsic defaultEdge = size) (hpos : size.isPositive = true)
    (bounds others : Bounds) (hset : ∀ e, ∀ n ∈ bounds.upper? e, 1 ≤ n)
    (h : bounds.AtMost others) (allowUpscale allowUpscale' : Bool) :
    let drawn := drawnSize intrinsic (some bounds) defaultEdge allowUpscale
    let drawn' := drawnSize intrinsic (some others) defaultEdge allowUpscale'
    drawn.width ≤ drawn'.width ∧ drawn.height ≤ drawn'.height := by
  intro drawn drawn'
  have hround := Binary64.round_mono (exactFactor_mono h hpos hset)
  have hle : ∀ e : Edge, e.of drawn ≤ e.of drawn' := by
    intro e
    rw [Edge.of_drawnSize hsize hpos, Edge.of_drawnSize hsize hpos]
    exact scaleEdge_mono_right _ hround
  exact ⟨hle .width, hle .height⟩

/-- A lower bound is raised until it contradicts an upper one, although that is raised as well. -/
theorem drawnSize_mono_contradicting :
    let bounds : Bounds :=
      { minHeight := some 10, maxEdge := some 120, maxWidth := some 100, allowUpscale := true }
    let others : Bounds := { minHeight := some 80, maxWidth := some 300 }
    bounds.AtMost others ∧ drawnSize (some ⟨400, 100⟩) (some bounds) 96 true = ⟨100, 25⟩ ∧
      drawnSize (some ⟨400, 100⟩) (some others) 96 false = ⟨320, 80⟩ ∧ 100 ≤ 320 ∧ 25 ≤ 80 := by
  intro bounds others
  have hset : ∀ e, ∀ n ∈ bounds.upper? e, 1 ≤ n := fun e => by cases e <;> decide
  have hle : bounds.AtMost others :=
    ⟨fun e => by cases e <;> decide, fun e => by cases e <;> decide⟩
  have hdrawn : drawnSize (some ⟨400, 100⟩) (some bounds) 96 true = ⟨100, 25⟩ := by decide +kernel
  have hdrawn' : drawnSize (some ⟨400, 100⟩) (some others) 96 false = ⟨320, 80⟩ := by
    decide +kernel
  have hmono := drawnSize_mono (some ⟨400, 100⟩) 96 ⟨400, 100⟩ rfl rfl bounds others hset hle true
    false
  simp only [hdrawn, hdrawn'] at hmono
  exact ⟨hle, hdrawn, hdrawn', hmono⟩

/-- A zero among the upper bounds leaves the size as it is, which is larger than with one pixel. -/
example :
    let least : Bounds := { minEdge := some 0, minWidth := some 0, minHeight := some 0 }
    drawnSize (some ⟨400, 100⟩) (some { least with maxWidth := some 0 }) 96 false = ⟨400, 100⟩ ∧
      drawnSize (some ⟨400, 100⟩) (some { least with maxWidth := some 1 }) 96 false = ⟨1, 1⟩ := by
  decide +kernel

end Drawing

end DocImage
