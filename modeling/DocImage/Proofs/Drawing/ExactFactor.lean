import Mathlib.Tactic
import DocImage.Proofs.Drawing.Factor

/-!
The size at which an image is drawn, compared with what exact arithmetic gives.

* A bound is on one of the edges (`EdgeBound`); `lowerBounds` and `upperBounds` are those that
  count, and `exactFactor` is the factor between the largest and the smallest of their exact ratios.
* `scale_eq`: the factor is the exact one, rounded once. Quotients are rounded, but rounding keeps
  the order, so that it does not matter whether it comes before or behind the choice of a limit.
* `scaleEdge_round`: an edge scaled by a rounded factor is at most a half and `2 ^ -19` away from
  the exact product, and has no error at all where that is an integer.
* `drawnSize_near_exact`: so is each edge of the size at which an image is drawn.
-/

namespace DocImage.Drawing

open Binary64 hiding round max min

/-! ### Bounds on edges -/

/-- The edges that a bound may be on. -/
inductive Edge where
  | long
  | width
  | height
deriving DecidableEq

/-- The pixels of an edge. -/
def Edge.of (size : Size) : Edge → Nat
  | long => size.longEdge
  | width => size.width
  | height => size.height

/-- A bound on an edge. -/
structure EdgeBound where
  edge : Edge
  pixels : Nat
deriving DecidableEq

/-- The factor by which the edge is scaled to exactly its bound. -/
def EdgeBound.ratio (bound : EdgeBound) (size : Size) : Rat :=
  bound.pixels / bound.edge.of size

/-- The lower bounds, also those that stand for one that is not set. -/
def lowerBounds : Option Bounds → List EdgeBound
  | none => [⟨.long, floorEdge⟩]
  | some bounds =>
    [⟨.long, bounds.minEdge.getD floorEdge⟩, ⟨.width, bounds.minWidth.getD floorEdge⟩,
      ⟨.height, bounds.minHeight.getD floorEdge⟩]

/-- The upper bounds that are set. -/
def upperBounds : Option Bounds → List EdgeBound
  | none => []
  | some bounds =>
    [bounds.maxEdge.map (.mk .long), bounds.maxWidth.map (.mk .width),
      bounds.maxHeight.map (.mk .height)].filterMap id

/-- The largest ratio of a lower bound. -/
def leastFactor (size : Size) (bounds : Option Bounds) : Rat :=
  ((lowerBounds bounds).map (·.ratio size)).max?.getD 0

/-- The smallest ratio of an upper bound, if there is one. -/
def mostFactor? (size : Size) (bounds : Option Bounds) : Option Rat :=
  ((upperBounds bounds).map (·.ratio size)).min?

/-- One, or the smallest ratio of an upper bound if that is less. -/
def cappedFactor (size : Size) (bounds : Option Bounds) : Rat :=
  (mostFactor? size bounds).elim 1 (min 1)

/-- The factor, computed without rounding. -/
def exactFactor (size : Size) (bounds : Option Bounds) : Rat :=
  let q := max (leastFactor size bounds) (cappedFactor size bounds)
  if q = 0 then 1 else q

lemma ratio_nonneg (bound : EdgeBound) (size : Size) : 0 ≤ bound.ratio size :=
  div_nonneg (Nat.cast_nonneg _) (Nat.cast_nonneg _)

section Limits

variable {size : Size} {bounds : Option Bounds} {bound : EdgeBound}

lemma exists_ratio_eq_leastFactor (size : Size) (bounds : Option Bounds) :
    ∃ bound ∈ lowerBounds bounds, bound.ratio size = leastFactor size bounds := by
  have hmax : ∃ q, ((lowerBounds bounds).map (·.ratio size)).max? = some q := by
    cases bounds with
    | none => exact ⟨_, rfl⟩
    | some b => exact ⟨_, rfl⟩
  obtain ⟨q, hq⟩ := hmax
  rw [leastFactor, hq]
  exact List.mem_map.mp (List.max?_mem hq)

lemma ratio_le_leastFactor (h : bound ∈ lowerBounds bounds) :
    bound.ratio size ≤ leastFactor size bounds := by
  have hmem := List.mem_map_of_mem (f := (·.ratio size)) h
  rw [leastFactor]
  cases hq : ((lowerBounds bounds).map (·.ratio size)).max? with
  | none =>
      rw [List.max?_eq_none_iff] at hq
      rw [hq] at hmem
      cases hmem
  | some q => exact (List.max?_eq_some_iff.mp hq).2 _ hmem

lemma leastFactor_nonneg (size : Size) (bounds : Option Bounds) : 0 ≤ leastFactor size bounds := by
  obtain ⟨bound, -, h⟩ := exists_ratio_eq_leastFactor size bounds
  exact h ▸ ratio_nonneg bound size

lemma cappedFactor_le_one (size : Size) (bounds : Option Bounds) :
    cappedFactor size bounds ≤ 1 := by
  rw [cappedFactor]
  cases mostFactor? size bounds with
  | none => exact le_rfl
  | some q => exact min_le_left 1 q

lemma cappedFactor_le_ratio (h : bound ∈ upperBounds bounds) :
    cappedFactor size bounds ≤ bound.ratio size := by
  have hmem := List.mem_map_of_mem (f := (·.ratio size)) h
  rw [cappedFactor, mostFactor?]
  cases hq : ((upperBounds bounds).map (·.ratio size)).min? with
  | none =>
      rw [List.min?_eq_none_iff] at hq
      rw [hq] at hmem
      cases hmem
  | some q => exact (min_le_right 1 q).trans ((List.min?_eq_some_iff.mp hq).2 _ hmem)

lemma cappedFactor_eq_one_or (size : Size) (bounds : Option Bounds) :
    cappedFactor size bounds = 1 ∨
      ∃ bound ∈ upperBounds bounds, cappedFactor size bounds = bound.ratio size := by
  rw [cappedFactor, mostFactor?]
  cases hq : ((upperBounds bounds).map (·.ratio size)).min? with
  | none => exact .inl rfl
  | some q =>
      obtain ⟨bound, hb, rfl⟩ := List.mem_map.mp (List.min?_mem hq)
      exact (min_choice 1 (bound.ratio size)).imp id fun h => ⟨bound, hb, h⟩

end Limits

/-! ### The factor, rounded once -/

section Factor

variable {size : Size} (hw : 0 < size.width) (hh : 0 < size.height)
include hw

lemma wantedScale_eq (allowUpscale : Bool) : wantedScale size allowUpscale = .finite 1 := by
  have hl := longEdge_pos hw
  have hone : ((size.longEdge : Rat) / size.longEdge) = 1 :=
    div_self (by exact_mod_cast hl.ne')
  rw [wantedScale, quotient_of_pos hl, hone, round_one]
  simp

include hh

lemma lowerLimit_eq (bounds : Option Bounds) :
    lowerLimit size bounds = .finite (Binary64.round (leastFactor size bounds)) := by
  have hl := longEdge_pos hw
  -- the limit begins with zero, and no ratio is below that
  have hzero : ∀ a b : Nat, Binary64.max (.finite 0) (.finite (Binary64.round (a / b))) =
      .finite (Binary64.round (a / b)) := fun a b => by
    have hab : (0 : Rat) ≤ a / b := div_nonneg a.cast_nonneg b.cast_nonneg
    have hmax := max_finite_round 0 (a / b)
    rwa [round_of_nonpos le_rfl, max_eq_right hab] at hmax
  cases bounds with
  | none =>
      rw [lowerLimit, quotient_of_pos hl, hzero]
      rfl
  | some b =>
      rw [lowerLimit, quotient_of_pos hl, quotient_of_pos hw, quotient_of_pos hh, hzero,
        max_finite_round, max_finite_round]
      rfl

omit hw hh in
/-- A limit that counts only where it is below one is lowered by the exact ratio. -/
lemma one_min_lowered {limit : Binary64} {q : Rat}
    (h : Binary64.min (.finite 1) limit = .finite (Binary64.round q)) (bound : Option Nat)
    {edge : Nat} (he : 0 < edge) :
    Binary64.min (.finite 1) (lowered limit bound edge) =
      .finite (Binary64.round (bound.elim q fun px => min q (px / edge))) := by
  cases bound with
  | none => exact h
  | some px =>
      rw [lowered, quotient_of_pos he, Option.elim_some, ← min_finite_round, ← h,
        Binary64.min_assoc]

/-- The wanted factor is one, so that it does not matter whether the upper limit begins there. -/
lemma one_min_upperLimit (bounds : Option Bounds) (allowUpscale : Bool) :
    Binary64.min (.finite 1) (upperLimit size bounds allowUpscale) =
      .finite (Binary64.round (cappedFactor size bounds)) := by
  have hlimit : Binary64.min (.finite 1) (if allowUpscale then .infinite else .finite 1) =
      .finite (Binary64.round 1) := by
    rw [round_one]
    cases allowUpscale <;> rfl
  cases bounds with
  | none => exact hlimit
  | some b =>
      have hl := longEdge_pos hw
      have hstep := one_min_lowered (one_min_lowered (one_min_lowered hlimit b.maxEdge hl)
        b.maxWidth hw) b.maxHeight hh
      rw [upperLimit, hstep, cappedFactor, mostFactor?, upperBounds]
      cases b.maxEdge <;> cases b.maxWidth <;> cases b.maxHeight <;>
        simp [EdgeBound.ratio, Edge.of, min_assoc]

/-- **The factor is the exact one, rounded once.** -/
lemma scale_eq (bounds : Option Bounds) (allowUpscale : Bool) :
    scale size bounds allowUpscale = Binary64.round (exactFactor size bounds) := by
  have hfactor : factor size bounds allowUpscale =
      .finite (Binary64.round (max (leastFactor size bounds) (cappedFactor size bounds))) := by
    rw [factor, wantedScale_eq hw, one_min_upperLimit hw hh, lowerLimit_eq hw hh,
      max_finite_round]
  have hnonneg := (leastFactor_nonneg size bounds).trans
    (le_max_left _ (cappedFactor size bounds))
  rw [scale_of_finite hfactor, exactFactor]
  rcases hnonneg.eq_or_lt with hzero | hpos
  · rw [← hzero, round_of_nonpos le_rfl, if_neg (lt_irrefl 0), if_pos rfl, round_one]
  · rw [if_pos (round_pos hpos), if_neg hpos.ne']

end Factor

/-! ### Edges that are scaled -/

lemma intCast_scaleEdge (edge : Nat) (q : Rat) :
    (scaleEdge edge q : Int) =
      max 1 (min (maxEdge : Int) (roundHalfEven (Binary64.product edge q))) := by
  rw [scaleEdge]
  omega

/-- The product of an edge and a rounded factor, which is rounded again. -/
lemma abs_product_sub_le (edge : Nat) {q : Rat} (hq : 0 ≤ q) :
    |Binary64.product edge (Binary64.round q) - edge * q| ≤ edge * q / 2 ^ 51 := by
  have he : (0 : Rat) ≤ edge := edge.cast_nonneg
  have hround := abs_round_sub_le hq
  have hle : Binary64.round q ≤ 2 * q := by
    have := (abs_le.mp hround).2
    linarith
  calc |Binary64.product edge (Binary64.round q) - edge * q|
      = |(Binary64.product edge (Binary64.round q) - edge * Binary64.round q) +
          edge * (Binary64.round q - q)| := by ring_nf
    _ ≤ |Binary64.product edge (Binary64.round q) - edge * Binary64.round q| +
          edge * |Binary64.round q - q| := by
        rw [← abs_of_nonneg he, ← abs_mul, abs_of_nonneg he]
        exact abs_add_le _ _
    _ ≤ edge * Binary64.round q / 2 ^ 53 + edge * (q / 2 ^ 53) := by
        gcongr
        exact abs_round_sub_le (mul_nonneg he (round_nonneg hq))
    _ ≤ edge * (2 * q) / 2 ^ 53 + edge * (q / 2 ^ 53) := by gcongr
    _ ≤ edge * q / 2 ^ 51 := by linarith [mul_nonneg he hq]

/-- A power of two is no source of errors. -/
lemma product_round_two_zpow {edge : Nat} (he : edge ≤ maxEdge) (k : Int) :
    Binary64.product edge (Binary64.round (2 ^ k)) = edge * 2 ^ k := by
  have hpow : Binary64.round (2 ^ k) = 2 ^ k := by
    simpa using round_eq_self (m := 1) (by norm_num) k
  rw [Binary64.product, hpow, round_eq_self (he.trans_lt (by decide))]

/-- **An edge scaled by a rounded factor** is less than one pixel away from the exact product, and
has no error where that is an integer or the factor is a power of two. -/
lemma scaleEdge_round {edge : Nat} (he : edge ≤ maxEdge) {q : Rat} (hq : 0 ≤ q) :
    ∃ n : Int, (scaleEdge edge (Binary64.round q) : Int) = max 1 (min (maxEdge : Int) n) ∧
      |n - edge * q| ≤ 1 / 2 + 1 / 2 ^ 19 ∧ (∀ k : Int, edge * q = k → n = k) ∧
      ∀ k : Int, q = 2 ^ k → n = roundHalfEven (edge * q) := by
  have herror := abs_product_sub_le edge hq
  rw [intCast_scaleEdge]
  generalize hp : Binary64.product edge (Binary64.round q) = p at herror ⊢
  rcases le_or_gt (edge * q) (2 ^ 32) with hsmall | hlarge
  · have herror' : |p - edge * q| ≤ 1 / 2 ^ 19 := herror.trans (by linarith)
    refine ⟨roundHalfEven p, rfl, ?_, fun k hk => ?_, fun k hk => ?_⟩
    · calc |(roundHalfEven p : Rat) - edge * q| ≤ |(roundHalfEven p : Rat) - p| + |p - edge * q| :=
            abs_sub_le _ _ _
        _ ≤ 1 / 2 + 1 / 2 ^ 19 := add_le_add (abs_roundHalfEven_sub_le p) herror'
    · rw [hk] at herror'
      exact roundHalfEven_eq_of_abs_sub_lt (herror'.trans_lt (by norm_num))
    · rw [← hp, hk, product_round_two_zpow he]
  · -- the error may be large here, but both products are above the largest edge
    refine ⟨roundHalfEven (edge * q), ?_, ?_, fun k hk => ?_, fun k _ => rfl⟩
    · have habove : ∀ r : Rat, (maxEdge : Int) ≤ r → (maxEdge : Int) ≤ roundHalfEven r :=
        fun r hr => (roundHalfEven_intCast maxEdge).ge.trans (roundHalfEven_mono hr)
      have hmax : ((maxEdge : Int) : Rat) = 2 ^ 32 - 1 := by norm_num [maxEdge]
      have hlo := (abs_le.mp herror).1
      rw [min_eq_left (habove p (by rw [hmax]; linarith)),
        min_eq_left (habove (edge * q) (by rw [hmax]; linarith))]
    · exact (abs_roundHalfEven_sub_le _).trans (by norm_num)
    · rw [hk, roundHalfEven_intCast]

section Scaled

variable {edge px : Nat} (he : edge ≤ maxEdge) {q : Rat} (hq : 0 ≤ q)
include he hq

/-- What the exact product reaches is reached. -/
lemma le_scaleEdge (hpx : px ≤ maxEdge) (h : px ≤ edge * q) :
    px ≤ scaleEdge edge (Binary64.round q) := by
  obtain ⟨n, hn, hnear, -⟩ := scaleEdge_round he hq
  have hlt : ((px - 1 : Int) : Rat) < n := by
    have := (abs_le.mp hnear).1
    push_cast
    linarith
  have hle : (px - 1 : Int) < n := by exact_mod_cast hlt
  omega

/-- What the exact product keeps below is kept below. -/
lemma scaleEdge_le (hpx : 1 ≤ px) (h : edge * q ≤ px) :
    scaleEdge edge (Binary64.round q) ≤ px := by
  obtain ⟨n, hn, hnear, -⟩ := scaleEdge_round he hq
  have hlt : (n : Rat) < (px + 1 : Int) := by
    have := (abs_le.mp hnear).2
    push_cast
    linarith
  have hle : n < px + 1 := by exact_mod_cast hlt
  omega

end Scaled

lemma scaleEdge_mono {q : Rat} (hq : 0 ≤ q) : Monotone (scaleEdge · q) := by
  intro a b hab
  have hprod : Binary64.product a q ≤ Binary64.product b q :=
    round_mono (mul_le_mul_of_nonneg_right (by exact_mod_cast hab) hq)
  have hround := roundHalfEven_mono hprod
  simp only [scaleEdge]
  omega

/-! ### The size that is drawn -/

lemma exactFactor_pos (size : Size) (bounds : Option Bounds) : 0 < exactFactor size bounds := by
  have hnonneg := (leastFactor_nonneg size bounds).trans (le_max_left _ (cappedFactor size bounds))
  rw [exactFactor]
  split_ifs with h
  · exact one_pos
  · exact lt_of_le_of_ne hnonneg (Ne.symm h)

lemma Edge.of_pos {size : Size} (h : size.isPositive = true) (e : Edge) : 0 < e.of size := by
  obtain ⟨hw, hh⟩ := isPositive_iff.mp h
  cases e with
  | long => exact longEdge_pos hw
  | width => exact hw
  | height => exact hh

lemma Edge.cast_of_pos {size : Size} (h : size.isPositive = true) (e : Edge) :
    (0 : Rat) < e.of size := by
  exact_mod_cast e.of_pos h

lemma of_mul_ratio {size : Size} (h : size.isPositive = true) (bound : EdgeBound) :
    bound.edge.of size * bound.ratio size = bound.pixels :=
  mul_div_cancel₀ _ (bound.edge.cast_of_pos h).ne'

lemma ratio_self {size : Size} (h : size.isPositive = true) (e : Edge) :
    (EdgeBound.mk e (e.of size)).ratio size = 1 :=
  div_self (e.cast_of_pos h).ne'

lemma Edge.of_le_longEdge (size : Size) (e : Edge) : e.of size ≤ size.longEdge := by
  cases e with
  | long => exact le_rfl
  | width => exact le_max_left _ _
  | height => exact le_max_right _ _

section Drawn

variable {intrinsic : Option Size} {defaultEdge : Nat} {size : Size}
  (hsize : workingSize intrinsic defaultEdge = size) (hpos : size.isPositive = true)
include hsize hpos

/-- Each edge is scaled by the same rounded factor, the longer one as well. -/
lemma Edge.of_drawnSize (bounds : Option Bounds) (allowUpscale : Bool) (e : Edge) :
    e.of (drawnSize intrinsic bounds defaultEdge allowUpscale) =
      scaleEdge (e.of size) (Binary64.round (exactFactor size bounds)) := by
  obtain ⟨hw, hh⟩ := isPositive_iff.mp hpos
  have hq := round_nonneg (exactFactor_pos size bounds).le
  have hdrawn : drawnSize intrinsic bounds defaultEdge allowUpscale =
      ⟨scaleEdge size.width (Binary64.round (exactFactor size bounds)),
        scaleEdge size.height (Binary64.round (exactFactor size bounds))⟩ := by
    rw [← scale_eq hw hh bounds allowUpscale, drawnSize, hsize]
  rw [hdrawn]
  cases e with
  | long => exact ((scaleEdge_mono hq).map_max).symm
  | width => rfl
  | height => rfl

variable (hmax : size.longEdge ≤ maxEdge) {bounds : Option Bounds} (allowUpscale : Bool)
  {bound : EdgeBound}
include hmax

/-- A bound that the exact factor reaches is reached. -/
lemma pixels_le_of_drawnSize (hpx : bound.pixels ≤ maxEdge)
    (h : bound.ratio size ≤ exactFactor size bounds) :
    bound.pixels ≤ bound.edge.of (drawnSize intrinsic bounds defaultEdge allowUpscale) := by
  rw [Edge.of_drawnSize hsize hpos]
  refine le_scaleEdge ((bound.edge.of_le_longEdge size).trans hmax)
    (exactFactor_pos size bounds).le hpx ?_
  rw [← of_mul_ratio hpos bound]
  exact mul_le_mul_of_nonneg_left h (Nat.cast_nonneg _)

/-- A bound that the exact factor does not exceed is not exceeded. -/
lemma of_drawnSize_le_pixels (h : exactFactor size bounds ≤ bound.ratio size) :
    bound.edge.of (drawnSize intrinsic bounds defaultEdge allowUpscale) ≤ bound.pixels := by
  have hq := exactFactor_pos size bounds
  have hproduct := of_mul_ratio hpos bound
  have hpixels : (0 : Rat) < bound.pixels :=
    hproduct ▸ mul_pos (bound.edge.cast_of_pos hpos) (hq.trans_le h)
  rw [Edge.of_drawnSize hsize hpos]
  refine scaleEdge_le ((bound.edge.of_le_longEdge size).trans hmax) hq.le
    (by exact_mod_cast hpixels) ?_
  rw [← hproduct]
  exact mul_le_mul_of_nonneg_left h (Nat.cast_nonneg _)

lemma of_drawnSize_eq_pixels (hpx : bound.pixels ≤ maxEdge)
    (h : exactFactor size bounds = bound.ratio size) :
    bound.edge.of (drawnSize intrinsic bounds defaultEdge allowUpscale) = bound.pixels :=
  (of_drawnSize_le_pixels hsize hpos hmax allowUpscale h.le).antisymm
    (pixels_le_of_drawnSize hsize hpos hmax allowUpscale hpx h.ge)

/-- A factor of one scales nothing: each edge is a bound on itself. -/
lemma drawnSize_eq_self (hone : exactFactor size bounds = 1) :
    drawnSize intrinsic bounds defaultEdge allowUpscale = size := by
  have hkeep : ∀ e : Edge,
      e.of (drawnSize intrinsic bounds defaultEdge allowUpscale) = e.of size := fun e =>
    of_drawnSize_eq_pixels hsize hpos hmax allowUpscale
      ((e.of_le_longEdge size).trans hmax) (hone.trans (ratio_self hpos e).symm)
  exact congrArg₂ Size.mk (hkeep .width) (hkeep .height)

end Drawn

/-- **Drawing is exact up to rounding.** For a size without a zero, whose edges are numbers of 32
bits, each drawn edge is an integer less than one pixel away from its product with the exact factor,
brought between one and the largest number of 32 bits. That integer is the product itself where this
is an integer, so that nothing is scaled by a factor of one and an edge whose bound decides the
factor is drawn with exactly that length; and it is the product rounded half to even where the
factor is a power of two. -/
theorem drawnSize_near_exact (intrinsic : Option Size) (bounds : Option Bounds) (defaultEdge : Nat)
    (allowUpscale : Bool) (size : Size) (hsize : workingSize intrinsic defaultEdge = size)
    (hpos : size.isPositive = true) (hmax : size.longEdge ≤ maxEdge) :
    (∀ e : Edge, ∃ n : Int,
      (e.of (drawnSize intrinsic bounds defaultEdge allowUpscale) : Int) =
        max 1 (min (maxEdge : Int) n) ∧
      |n - e.of size * exactFactor size bounds| ≤ 1 / 2 + 1 / 2 ^ 19 ∧
      (∀ k : Int, e.of size * exactFactor size bounds = k → n = k) ∧
      ∀ k : Int, exactFactor size bounds = 2 ^ k →
        n = roundHalfEven (e.of size * exactFactor size bounds)) ∧
    (exactFactor size bounds = 1 →
      drawnSize intrinsic bounds defaultEdge allowUpscale = size) ∧
    ∀ bound ∈ lowerBounds bounds ++ upperBounds bounds, bound.pixels ≤ maxEdge →
      exactFactor size bounds = bound.ratio size →
      bound.edge.of (drawnSize intrinsic bounds defaultEdge allowUpscale) = bound.pixels := by
  refine ⟨fun e => ?_, drawnSize_eq_self hsize hpos hmax allowUpscale,
    fun bound _ => of_drawnSize_eq_pixels hsize hpos hmax allowUpscale⟩
  rw [Edge.of_drawnSize hsize hpos]
  exact scaleEdge_round ((e.of_le_longEdge size).trans hmax) (exactFactor_pos size bounds).le

/-- An image that is drawn at half its size: the bound on its longer edge is met, and of the shorter
one, which would have a half of a pixel, the even number is taken. -/
theorem drawnSize_near_exact_halved :
    exactFactor ⟨256, 145⟩ (some { maxEdge := some 128 }) = 2 ^ (-1 : Int) ∧
      (drawnSize (some ⟨256, 145⟩) (some { maxEdge := some 128 }) 96 false).longEdge = 128 ∧
      (drawnSize (some ⟨256, 145⟩) (some { maxEdge := some 128 }) 96 false).height = 72 := by
  have hfactor : exactFactor ⟨256, 145⟩ (some { maxEdge := some 128 }) = 2 ^ (-1 : Int) := by
    decide +kernel
  obtain ⟨hnear, -, hbound⟩ := drawnSize_near_exact (some ⟨256, 145⟩)
    (some { maxEdge := some 128 }) 96 false ⟨256, 145⟩ rfl rfl (by decide)
  obtain ⟨n, hn, -, -, hpow⟩ := hnear .height
  have heven : n = 72 := by
    rw [hpow (-1) hfactor, hfactor]
    decide +kernel
  have hlong := hbound ⟨.long, 128⟩ (by decide) (by decide) (by rw [hfactor]; decide +kernel)
  exact ⟨hfactor, hlong, by rw [heven] at hn; exact_mod_cast hn⟩

end DocImage.Drawing
