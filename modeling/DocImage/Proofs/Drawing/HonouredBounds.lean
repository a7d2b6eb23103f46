import Mathlib.Tactic
import DocImage.Proofs.Drawing.ExactFactor

/-!
What becomes of the bounds on a size.

* `drawnSize_honours`: every lower bound is honoured; every upper bound is, unless the lower ones
  ask for more, and then a lower bound is met exactly; and nothing is enlarged beyond what they ask
  for.
* `drawnSize_drawnSize`: so a size that has been drawn is drawn as it is.
-/

namespace DocImage.Drawing

/-! ### The exact factor between its limits -/

section Factor

variable {size : Size} {bounds : Option Bounds}

lemma exactFactor_eq_max (h : 0 < max (leastFactor size bounds) (cappedFactor size bounds)) :
    exactFactor size bounds = max (leastFactor size bounds) (cappedFactor size bounds) :=
  if_neg h.ne'

lemma leastFactor_le_exactFactor (size : Size) (bounds : Option Bounds) :
    leastFactor size bounds ≤ exactFactor size bounds := by
  rw [exactFactor]
  have hle := le_max_left (leastFactor size bounds) (cappedFactor size bounds)
  split_ifs with h
  · rw [h] at hle
    exact hle.trans one_pos.le
  · exact hle

lemma exactFactor_le_one (h : leastFactor size bounds ≤ 1) : exactFactor size bounds ≤ 1 := by
  rw [exactFactor]
  split_ifs
  · exact le_rfl
  · exact max_le h (cappedFactor_le_one size bounds)

/-- The factor is one where the lower bounds ask for no more, and for exactly this unless the upper
ones allow it. -/
lemma exactFactor_eq_one (h : leastFactor size bounds ≤ 1)
    (h' : leastFactor size bounds = 1 ∨ cappedFactor size bounds = 1) :
    exactFactor size bounds = 1 := by
  have hmax : max (leastFactor size bounds) (cappedFactor size bounds) = 1 := by
    rcases h' with hl | hc
    · rw [hl, max_eq_left (cappedFactor_le_one size bounds)]
    · rw [hc, max_eq_right h]
  rw [exactFactor_eq_max (hmax ▸ one_pos), hmax]

/-- Where a bound gives the lower limit by contradicting an upper limit, that one is not heeded. -/
lemma exactFactor_eq_leastFactor
    (h : 1 < leastFactor size bounds ∨
      ∃ bound ∈ upperBounds bounds, bound.ratio size < leastFactor size bounds) :
    exactFactor size bounds = leastFactor size bounds := by
  have hcapped : cappedFactor size bounds < leastFactor size bounds ∧
      0 < leastFactor size bounds := by
    rcases h with hone | ⟨bound, hb, hlt⟩
    · exact ⟨(cappedFactor_le_one size bounds).trans_lt hone, one_pos.trans hone⟩
    · exact ⟨(cappedFactor_le_ratio hb).trans_lt hlt, (ratio_nonneg bound size).trans_lt hlt⟩
  obtain ⟨hlt, hpos⟩ := hcapped
  have hmax := max_eq_left hlt.le
  rw [exactFactor_eq_max (hmax.symm ▸ hpos), hmax]

end Factor

section Ratio

variable {size : Size} (hpos : size.isPositive = true) {bound : EdgeBound}
include hpos

lemma ratio_le_one_iff : bound.ratio size ≤ 1 ↔ bound.pixels ≤ bound.edge.of size := by
  rw [EdgeBound.ratio, div_le_one (bound.edge.cast_of_pos hpos), Nat.cast_le]

lemma one_le_ratio_iff : 1 ≤ bound.ratio size ↔ bound.edge.of size ≤ bound.pixels := by
  rw [EdgeBound.ratio, one_le_div (bound.edge.cast_of_pos hpos), Nat.cast_le]

lemma ratio_pos (h : 1 ≤ bound.pixels) : 0 < bound.ratio size :=
  div_pos (by exact_mod_cast h) (bound.edge.cast_of_pos hpos)

lemma cappedFactor_pos {bounds : Option Bounds}
    (h : ∀ bound ∈ upperBounds bounds, 1 ≤ bound.pixels) : 0 < cappedFactor size bounds := by
  rcases cappedFactor_eq_one_or size bounds with hone | ⟨bound, hb, hratio⟩
  · exact hone ▸ one_pos
  · exact hratio ▸ ratio_pos hpos (h bound hb)

end Ratio

/-! ### What the drawn size makes of each bound -/

section Drawn

variable {intrinsic : Option Size} {defaultEdge : Nat} {size : Size}
  (hsize : workingSize intrinsic defaultEdge = size) (hpos : size.isPositive = true)
  (hmax : size.longEdge ≤ maxEdge) {bounds : Option Bounds} (allowUpscale : Bool)
include hsize hpos hmax

lemma lower_le_of_drawnSize {bound : EdgeBound} (hb : bound ∈ lowerBounds bounds)
    (hpx : bound.pixels ≤ maxEdge) :
    bound.pixels ≤ bound.edge.of (drawnSize intrinsic bounds defaultEdge allowUpscale) :=
  pixels_le_of_drawnSize hsize hpos hmax allowUpscale hpx
    ((ratio_le_leastFactor hb).trans (leastFactor_le_exactFactor size bounds))

lemma of_drawnSize_le_upper
    (h : ∀ bound ∈ upperBounds bounds,
      1 ≤ bound.pixels ∧ leastFactor size bounds ≤ bound.ratio size)
    {bound : EdgeBound} (hb : bound ∈ upperBounds bounds) :
    bound.edge.of (drawnSize intrinsic bounds defaultEdge allowUpscale) ≤ bound.pixels := by
  have hcapped := cappedFactor_pos hpos fun bound hb => (h bound hb).1
  refine of_drawnSize_le_pixels hsize hpos hmax allowUpscale ?_
  rw [exactFactor_eq_max (lt_max_of_lt_right hcapped)]
  exact max_le (h bound hb).2 (cappedFactor_le_ratio hb)

lemma of_drawnSize_le_of (h : leastFactor size bounds ≤ 1) (e : Edge) :
    e.of (drawnSize intrinsic bounds defaultEdge allowUpscale) ≤ e.of size :=
  of_drawnSize_le_pixels hsize hpos hmax allowUpscale
    ((exactFactor_le_one h).trans (ratio_self hpos e).ge)

lemma exists_lower_of_drawnSize (hfit : ∀ bound ∈ lowerBounds bounds, bound.pixels ≤ maxEdge)
    (h : 1 < leastFactor size bounds ∨
      ∃ bound ∈ upperBounds bounds, bound.ratio size < leastFactor size bounds) :
    ∃ bound ∈ lowerBounds bounds,
      bound.edge.of (drawnSize intrinsic bounds defaultEdge allowUpscale) = bound.pixels := by
  obtain ⟨bound, hb, hratio⟩ := exists_ratio_eq_leastFactor size bounds
  exact ⟨bound, hb, of_drawnSize_eq_pixels hsize hpos hmax allowUpscale (hfit bound hb)
    ((exactFactor_eq_leastFactor h).trans hratio.symm)⟩

lemma leastFactor_drawnSize_le_one
    (hfit : ∀ bound ∈ lowerBounds bounds, bound.pixels ≤ maxEdge) :
    leastFactor (drawnSize intrinsic bounds defaultEdge allowUpscale) bounds ≤ 1 := by
  obtain ⟨bound, hb, hratio⟩ := exists_ratio_eq_leastFactor
    (drawnSize intrinsic bounds defaultEdge allowUpscale) bounds
  rw [← hratio, ratio_le_one_iff (isPositive_drawnSize _ _ _ _)]
  exact lower_le_of_drawnSize hsize hpos hmax allowUpscale hb (hfit bound hb)

/-- The exact factor of a size that has been drawn is one: a lower bound has been met exactly, or
the upper bounds have been kept, or a zero among them has left the size as it was. -/
lemma exactFactor_drawnSize (hfit : ∀ bound ∈ lowerBounds bounds, bound.pixels ≤ maxEdge) :
    exactFactor (drawnSize intrinsic bounds defaultEdge allowUpscale) bounds = 1 := by
  have hpos' := isPositive_drawnSize intrinsic bounds defaultEdge allowUpscale
  have hleast := leastFactor_drawnSize_le_one hsize hpos hmax allowUpscale hfit
  by_cases hmet : 1 < leastFactor size bounds ∨
      ∃ bound ∈ upperBounds bounds, bound.ratio size < leastFactor size bounds
  · obtain ⟨bound, hb, hpixels⟩ :=
      exists_lower_of_drawnSize hsize hpos hmax allowUpscale hfit hmet
    have hge := (one_le_ratio_iff hpos').mpr hpixels.le
    exact exactFactor_eq_one hleast (.inl (hleast.antisymm (hge.trans (ratio_le_leastFactor hb))))
  push Not at hmet
  by_cases hset : ∀ bound ∈ upperBounds bounds, 1 ≤ bound.pixels
  · refine exactFactor_eq_one hleast (.inr ?_)
    rcases cappedFactor_eq_one_or _ bounds with hc | ⟨bound, hb, hc⟩
    · exact hc
    refine (cappedFactor_le_one _ bounds).antisymm ?_
    rw [hc, one_le_ratio_iff hpos']
    exact of_drawnSize_le_upper hsize hpos hmax allowUpscale
      (fun bound hb => ⟨hset bound hb, hmet.2 bound hb⟩) hb
  · push Not at hset
    obtain ⟨bound, hb, hzero⟩ := hset
    have hratio : bound.ratio size = 0 := by
      rw [EdgeBound.ratio, Nat.lt_one_iff.mp hzero, Nat.cast_zero, zero_div]
    have hone : exactFactor size bounds = 1 := by
      refine if_pos (le_antisymm (max_le ?_ ?_) (le_max_of_le_left (leastFactor_nonneg _ _)))
      · exact hratio ▸ hmet.2 bound hb
      · exact hratio ▸ cappedFactor_le_ratio hb
    rw [drawnSize_eq_self hsize hpos hmax allowUpscale hone, hone]

end Drawn

/-- **Bounds are honoured, and the lower ones win.** For a size without a zero and numbers of 32
bits, no drawn edge is shorter than a lower bound on it. None is longer than an upper bound on it
either, if none of these is zero and the lower ones do not ask for more than they allow. An image
that the lower bounds do not enlarge is drawn no larger than it is. Where they ask for more than
that, or than an upper bound allows, one of them is met exactly. -/
theorem drawnSize_honours (intrinsic : Option Size) (bounds : Option Bounds) (defaultEdge : Nat)
    (allowUpscale : Bool) (size : Size) (hsize : workingSize intrinsic defaultEdge = size)
    (hpos : size.isPositive = true) (hmax : size.longEdge ≤ maxEdge)
    (hfit : ∀ bound ∈ lowerBounds bounds, bound.pixels ≤ maxEdge) :
    let drawn := drawnSize intrinsic bounds defaultEdge allowUpscale
    let least := leastFactor size bounds
    (1 ≤ drawn.width ∧ 1 ≤ drawn.height) ∧
    (∀ bound ∈ lowerBounds bounds, bound.pixels ≤ bound.edge.of drawn) ∧
    ((∀ bound ∈ upperBounds bounds, 1 ≤ bound.pixels ∧ least ≤ bound.ratio size) →
      ∀ bound ∈ upperBounds bounds, bound.edge.of drawn ≤ bound.pixels) ∧
    (least ≤ 1 → drawn.width ≤ size.width ∧ drawn.height ≤ size.height) ∧
    ((1 < least ∨ ∃ bound ∈ upperBounds bounds, bound.ratio size < least) →
      ∃ bound ∈ lowerBounds bounds, bound.edge.of drawn = bound.pixels) := by
  refine ⟨isPositive_iff.mp (isPositive_drawnSize _ _ _ _), fun bound hb => ?_,
    fun h bound hb => ?_, fun h => ⟨?_, ?_⟩, fun h => ?_⟩
  · exact lower_le_of_drawnSize hsize hpos hmax allowUpscale hb (hfit bound hb)
  · exact of_drawnSize_le_upper hsize hpos hmax allowUpscale h hb
  · exact of_drawnSize_le_of hsize hpos hmax allowUpscale h .width
  · exact of_drawnSize_le_of hsize hpos hmax allowUpscale h .height
  · exact exists_lower_of_drawnSize hsize hpos hmax allowUpscale hfit h

/-- A longer edge that is to be short, and a shorter one that is too short: the lower bound that
stands for the missing one wins. -/
theorem drawnSize_honours_contradicting :
    let bounds : Option Bounds := some { maxEdge := some 100 }
    let drawn := drawnSize (some ⟨300, 10⟩) bounds 96 false
    (∃ bound ∈ upperBounds bounds, bound.ratio ⟨300, 10⟩ < leastFactor ⟨300, 10⟩ bounds) ∧
      32 ≤ drawn.height ∧ ∃ bound ∈ lowerBounds bounds, bound.edge.of drawn = bound.pixels := by
  intro bounds drawn
  obtain ⟨-, hlower, -, -, hmet⟩ := drawnSize_honours (some ⟨300, 10⟩) bounds 96 false ⟨300, 10⟩ rfl
    rfl (by decide) (by decide)
  have hcontradiction : ∃ bound ∈ upperBounds bounds,
      bound.ratio ⟨300, 10⟩ < leastFactor ⟨300, 10⟩ bounds :=
    ⟨⟨.long, 100⟩, by decide, by decide +kernel⟩
  exact ⟨hcontradiction, hlower ⟨.height, 32⟩ (by decide), hmet (.inr hcontradiction)⟩

/-- **A drawn size is drawn as it is**, with the same bounds. -/
theorem drawnSize_drawnSize (intrinsic : Option Size) (bounds : Option Bounds) (defaultEdge : Nat)
    (allowUpscale : Bool) (size : Size) (hsize : workingSize intrinsic defaultEdge = size)
    (hpos : size.isPositive = true) (hmax : size.longEdge ≤ maxEdge)
    (hfit : ∀ bound ∈ lowerBounds bounds, bound.pixels ≤ maxEdge) (defaultEdge' : Nat)
    (allowUpscale' : Bool) :
    drawnSize (some (drawnSize intrinsic bounds defaultEdge allowUpscale)) bounds defaultEdge'
      allowUpscale' = drawnSize intrinsic bounds defaultEdge allowUpscale := by
  have hpos' := isPositive_drawnSize intrinsic bounds defaultEdge allowUpscale
  have hworking : workingSize (some (drawnSize intrinsic bounds defaultEdge allowUpscale))
      defaultEdge' = drawnSize intrinsic bounds defaultEdge allowUpscale := if_pos hpos'
  have hone := exactFactor_drawnSize hsize hpos hmax allowUpscale hfit
  exact drawnSize_eq_self hworking hpos' (longEdge_drawnSize_le _ _ _ _) allowUpscale' hone

/-- An image of unknown size and bounds that contradict each other, one of them zero. -/
theorem drawnSize_drawnSize_contradicting :
    let bounds : Option Bounds := some { minEdge := some 200, maxWidth := some 0 }
    drawnSize none bounds 96 false = ⟨200, 200⟩ ∧
      drawnSize (some ⟨200, 200⟩) bounds 0 true = ⟨200, 200⟩ := by
  intro bounds
  have hdrawn : drawnSize none bounds 96 false = ⟨200, 200⟩ := by decide +kernel
  have htwice := drawnSize_drawnSize none bounds 96 false (.square 96) rfl rfl (by decide)
    (by decide) 0 true
  rw [hdrawn] at htwice
  exact ⟨hdrawn, htwice⟩

end DocImage.Drawing
