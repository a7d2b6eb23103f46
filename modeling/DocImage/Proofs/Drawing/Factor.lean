import Mathlib.Tactic
import DocImage.Drawing.DrawnSize
import DocImage.Proofs.Drawing.Rounding

/-!
The factor by which an image is scaled is a finite positive number, unless a bound or an edge is
zero. Whatever it is, the size that is drawn has no zero.

* `Binary64.IsUsable` numbers are finite and positive; `quotient`, `max` and `min` keep to them.
* `Drawing.isUsable_factor`: so the factor is one of them, and `scale_of_factor_eq` says that it is
  taken as it is.
* `Drawing.isPositive_drawnSize` and `Drawing.longEdge_drawnSize_le`: the edges that are drawn are
  between one and the largest number of 32 bits.
-/

namespace DocImage

namespace Binary64

/-! ### Usable numbers -/

/-- The number is finite and positive, and far below the largest one of the format. -/
def IsUsable (x : Binary64) : Prop :=
  ∃ q, x = .finite q ∧ 0 < q ∧ q ≤ 0x100000000

lemma isUsable_quotient {a b : Nat} (ha : 0 < a) (ha' : a ≤ 0x80000000) (hb : 0 < b) :
    IsUsable (quotient a b) := by
  have hb' : (1 : Rat) ≤ b := by exact_mod_cast hb
  have hpos : (0 : Rat) < a / b := div_pos (by exact_mod_cast ha) (by exact_mod_cast hb)
  have hle : (a / b : Rat) ≤ 0x80000000 :=
    (div_le_self a.cast_nonneg hb').trans (by exact_mod_cast ha')
  obtain ⟨hlo, hhi⟩ := abs_le.mp (abs_round_sub_le hpos.le)
  exact ⟨round (a / b), quotient_of_pos hb, by linarith, by linarith⟩

lemma IsUsable.max {x y : Binary64} (hx : IsUsable x) (hy : IsUsable y) : IsUsable (x.max y) := by
  obtain ⟨p, rfl, hp⟩ := hx
  obtain ⟨q, rfl, hq⟩ := hy
  rw [Binary64.max]
  split_ifs
  · exact ⟨q, rfl, hq⟩
  · exact ⟨p, rfl, hp⟩

lemma IsUsable.min {x y : Binary64} (hx : IsUsable x) (hy : IsUsable y) : IsUsable (x.min y) := by
  obtain ⟨p, rfl, hp⟩ := hx
  obtain ⟨q, rfl, hq⟩ := hy
  rw [Binary64.min]
  split_ifs
  · exact ⟨q, rfl, hq⟩
  · exact ⟨p, rfl, hp⟩

lemma IsUsable.max_zero {x : Binary64} (hx : IsUsable x) :
    IsUsable (Binary64.max (.finite 0) x) := by
  obtain ⟨q, rfl, hq⟩ := hx
  rw [Binary64.max, if_pos hq.1]
  exact ⟨q, rfl, hq⟩

lemma IsUsable.infinite_min {x : Binary64} (hx : IsUsable x) : Binary64.min .infinite x = x := by
  obtain ⟨q, rfl, -⟩ := hx
  rfl

lemma IsUsable.min_infinite {x : Binary64} (hx : IsUsable x) : x.min .infinite = x := by
  obtain ⟨q, rfl, -⟩ := hx
  rfl

end Binary64

open Binary64

/-- Every bound that is set is a number of pixels that can be written: positive and below `2 ^ 31`.
-/
structure Bounds.IsUsable (bounds : Bounds) : Prop where
  minEdge : ∀ n ∈ bounds.minEdge, 0 < n ∧ n < 0x80000000
  maxEdge : ∀ n ∈ bounds.maxEdge, 0 < n ∧ n < 0x80000000
  minWidth : ∀ n ∈ bounds.minWidth, 0 < n ∧ n < 0x80000000
  minHeight : ∀ n ∈ bounds.minHeight, 0 < n ∧ n < 0x80000000
  maxWidth : ∀ n ∈ bounds.maxWidth, 0 < n ∧ n < 0x80000000
  maxHeight : ∀ n ∈ bounds.maxHeight, 0 < n ∧ n < 0x80000000

namespace Drawing

/-! ### The factor -/

/-- The factor as it is computed, before it is seen whether it is a positive number. -/
def factor (size : Size) (bounds : Option Bounds) (allowUpscale : Bool) : Binary64 :=
  (lowerLimit size bounds).max ((wantedScale size allowUpscale).min
    (upperLimit size bounds allowUpscale))

/-- A finite factor is taken as it is, unless it is zero. -/
lemma scale_of_finite {size : Size} {bounds : Option Bounds} {allowUpscale : Bool} {q : Rat}
    (h : factor size bounds allowUpscale = .finite q) :
    scale size bounds allowUpscale = if 0 < q then q else 1 := by
  rw [factor] at h
  simp only [scale, h]

/-- A factor that is finite and positive is taken as it is. -/
lemma scale_of_factor_eq {size : Size} {bounds : Option Bounds} {allowUpscale : Bool} {q : Rat}
    (h : factor size bounds allowUpscale = .finite q) (hq : 0 < q) :
    scale size bounds allowUpscale = q := by
  rw [scale_of_finite h, if_pos hq]

section Usable

variable {size : Size} (hw : 0 < size.width) (hh : 0 < size.height)
include hw

lemma longEdge_pos : 0 < size.longEdge :=
  lt_max_of_lt_left hw

lemma isUsable_wantedScale (hl : size.longEdge ≤ 0x80000000) (allowUpscale : Bool) :
    IsUsable (wantedScale size allowUpscale) := by
  obtain ⟨q, hq, hb⟩ := isUsable_quotient (longEdge_pos hw) hl (longEdge_pos hw)
  rw [wantedScale, hq]
  simp only
  split_ifs
  · exact ⟨1, rfl, by norm_num, by norm_num⟩
  · exact ⟨q, rfl, hb⟩

omit hw in
/-- A lower bound on an edge makes a usable limit, and so does the one that stands for it. -/
lemma isUsable_quotient_getD {bound : Option Nat} (hb : ∀ n ∈ bound, 0 < n ∧ n < 0x80000000)
    {edge : Nat} (he : 0 < edge) : IsUsable (quotient (bound.getD floorEdge) edge) := by
  cases bound with
  | none => exact isUsable_quotient (by decide) (by decide) he
  | some n => exact isUsable_quotient (hb n rfl).1 (hb n rfl).2.le he

include hh in
lemma isUsable_lowerLimit {bounds : Option Bounds} (hb : ∀ b ∈ bounds, b.IsUsable) :
    IsUsable (lowerLimit size bounds) := by
  have hl := longEdge_pos hw
  cases bounds with
  | none => exact (isUsable_quotient (by decide) (by decide) hl).max_zero
  | some b =>
      have hb := hb b rfl
      exact ((isUsable_quotient_getD hb.minEdge hl).max_zero.max
        (isUsable_quotient_getD hb.minWidth hw)).max (isUsable_quotient_getD hb.minHeight hh)

omit hw in
/-- A limit that is infinite or usable is so when it is lowered. -/
lemma lowered_eq_infinite_or {limit : Binary64} (h : limit = .infinite ∨ IsUsable limit)
    {bound : Option Nat} (hb : ∀ n ∈ bound, 0 < n ∧ n < 0x80000000) {edge : Nat} (he : 0 < edge) :
    lowered limit bound edge = .infinite ∨ IsUsable (lowered limit bound edge) := by
  cases bound with
  | none => exact h
  | some n =>
      have hq := isUsable_quotient (hb n rfl).1 (hb n rfl).2.le he
      refine .inr ?_
      rw [lowered]
      rcases h with rfl | hu
      · rwa [hq.infinite_min]
      · exact hu.min hq

include hh in
lemma upperLimit_eq_infinite_or {bounds : Option Bounds} (hb : ∀ b ∈ bounds, b.IsUsable)
    (allowUpscale : Bool) :
    upperLimit size bounds allowUpscale = .infinite ∨
      IsUsable (upperLimit size bounds allowUpscale) := by
  have hlimit : (if allowUpscale then Binary64.infinite else .finite 1) = .infinite ∨
      IsUsable (if allowUpscale then .infinite else .finite 1) := by
    cases allowUpscale with
    | true => exact .inl rfl
    | false => exact .inr ⟨1, rfl, by norm_num, by norm_num⟩
  cases bounds with
  | none => exact hlimit
  | some b =>
      have hb := hb b rfl
      exact lowered_eq_infinite_or (lowered_eq_infinite_or
        (lowered_eq_infinite_or hlimit hb.maxEdge (longEdge_pos hw)) hb.maxWidth hw) hb.maxHeight hh

include hh in
/-- **The factor is a finite positive number** for a size without a zero and usable bounds. -/
lemma isUsable_factor (hl : size.longEdge ≤ 0x80000000) {bounds : Option Bounds}
    (hb : ∀ b ∈ bounds, b.IsUsable) (allowUpscale : Bool) :
    IsUsable (factor size bounds allowUpscale) := by
  have hwanted := isUsable_wantedScale hw hl allowUpscale
  refine (isUsable_lowerLimit hw hh hb).max ?_
  rcases upperLimit_eq_infinite_or hw hh hb allowUpscale with hu | hu
  · rwa [hu, hwanted.min_infinite]
  · exact hwanted.min hu

end Usable

/-! ### The size that is drawn -/

lemma isPositive_iff {size : Size} :
    size.isPositive = true ↔ 0 < size.width ∧ 0 < size.height := by
  simp [Size.isPositive]

lemma one_le_scaleEdge (edge : Nat) (q : Rat) : 1 ≤ scaleEdge edge q :=
  le_max_left _ _

lemma scaleEdge_le_maxEdge (edge : Nat) (q : Rat) : scaleEdge edge q ≤ maxEdge :=
  max_le (by decide) (min_le_left _ _)

/-- Any image is drawn with at least one pixel each way. -/
lemma isPositive_drawnSize (intrinsic : Option Size) (bounds : Option Bounds) (defaultEdge : Nat)
    (allowUpscale : Bool) :
    (drawnSize intrinsic bounds defaultEdge allowUpscale).isPositive = true :=
  isPositive_iff.mpr ⟨one_le_scaleEdge _ _, one_le_scaleEdge _ _⟩

lemma longEdge_drawnSize_le (intrinsic : Option Size) (bounds : Option Bounds) (defaultEdge : Nat)
    (allowUpscale : Bool) :
    (drawnSize intrinsic bounds defaultEdge allowUpscale).longEdge ≤ maxEdge :=
  max_le (scaleEdge_le_maxEdge _ _) (scaleEdge_le_maxEdge _ _)

end Drawing

end DocImage
