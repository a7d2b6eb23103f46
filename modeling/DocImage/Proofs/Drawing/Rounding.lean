import Mathlib.Tactic
import DocImage.Drawing.Binary64

/-!
Rounding, to an integer and to 53 significant binary digits.

* `roundHalfEven_mono` and `Binary64.round_mono`: rounding keeps the order, so that it changes no
  choice of the larger or the smaller of two numbers (`Binary64.max_finite_round`,
  `Binary64.min_finite_round`).
* `Binary64.abs_round_sub_le`: it moves a number by at most its part in `2 ^ 53`.
* `Binary64.round_eq_self`: numbers with at most 53 binary digits stay as they are.
-/

namespace DocImage

/-! ### To an integer -/

/-- A number is rounded to an integer at most one half away. -/
lemma abs_roundHalfEven_sub_le (q : Rat) : |(roundHalfEven q : Rat) - q| ≤ 1 / 2 := by
  have hle : (q.floor : Rat) ≤ q := Rat.floor_le q
  have hlt : q < q.floor + 1 := by exact_mod_cast Rat.lt_floor_add_one q
  rw [roundHalfEven, abs_le]
  split_ifs <;> push_cast <;> constructor <;> linarith

/-- A number less than one half away from an integer is rounded to it. -/
lemma roundHalfEven_eq_of_abs_sub_lt {q : Rat} {n : Int} (h : |q - n| < 1 / 2) :
    roundHalfEven q = n := by
  have hdist : |((roundHalfEven q - n : Int) : Rat)| < 1 :=
    calc |((roundHalfEven q - n : Int) : Rat)|
        = |((roundHalfEven q : Rat) - q) + (q - n)| := by push_cast; ring_nf
      _ ≤ |(roundHalfEven q : Rat) - q| + |q - n| := abs_add_le _ _
      _ < 1 := by linarith [abs_roundHalfEven_sub_le q]
  have hzero : |roundHalfEven q - n| < 1 := by exact_mod_cast hdist
  exact sub_eq_zero.mp (Int.abs_lt_one_iff.mp hzero)

lemma roundHalfEven_intCast (n : Int) : roundHalfEven n = n :=
  roundHalfEven_eq_of_abs_sub_lt (by norm_num)

lemma roundHalfEven_mono : Monotone roundHalfEven := by
  intro p q h
  by_contra hlt
  -- the numbers would have to be equal, both half-way between the two integers
  have hstep : (roundHalfEven q : Rat) + 1 ≤ roundHalfEven p := by exact_mod_cast not_le.mp hlt
  have hp := (abs_le.mp (abs_roundHalfEven_sub_le p)).2
  have hq := (abs_le.mp (abs_roundHalfEven_sub_le q)).1
  have hpq : p = q := le_antisymm h (by linarith)
  exact hlt (hpq ▸ le_rfl)

namespace Binary64

/-! ### The exponent of a number -/

/-- The power of two with the exponent of a number is not above the number. -/
lemma two_zpow_exponent_le {q : Rat} (h : 0 < q) : (2 : Rat) ^ exponent q ≤ q := by
  rw [exponent]
  split_ifs with he
  · exact he
  -- the numerator is at least, and the denominator less than, a power of two
  have hpos := Rat.num_pos.mpr h
  have hnum : (2 : Rat) ^ q.num.toNat.log2 ≤ q.num := by
    have : 2 ^ q.num.toNat.log2 ≤ q.num.toNat := Nat.log2_self_le (by omega)
    exact_mod_cast (by omega : ((2 ^ q.num.toNat.log2 : Nat) : Int) ≤ q.num)
  have hden : (q.den : Rat) ≤ 2 ^ (q.den.log2 + 1) := by
    exact_mod_cast Nat.lt_log2_self.le
  have hden0 : (0 : Rat) < q.den := by exact_mod_cast q.den_pos
  calc (2 : Rat) ^ ((q.num.toNat.log2 : Int) - q.den.log2 - 1)
      = 2 ^ q.num.toNat.log2 / 2 ^ (q.den.log2 + 1) := by
        rw [sub_sub, zpow_sub₀ (by norm_num), zpow_natCast]
        norm_cast
    _ ≤ q.num / q.den := div_le_div₀ (by exact_mod_cast hpos.le) hnum hden0 hden
    _ = q := Rat.num_div_den q

/-- The next power of two is above the number. -/
lemma lt_two_zpow_exponent_add_one {q : Rat} (h : 0 < q) : q < (2 : Rat) ^ (exponent q + 1) := by
  rw [exponent]
  split_ifs with he
  · have hpos := Rat.num_pos.mpr h
    have hnum : (q.num : Rat) < 2 ^ (q.num.toNat.log2 + 1) := by
      have : q.num.toNat < 2 ^ (q.num.toNat.log2 + 1) := Nat.lt_log2_self
      exact_mod_cast (by omega : q.num < ((2 ^ (q.num.toNat.log2 + 1) : Nat) : Int))
    have hden : (2 : Rat) ^ q.den.log2 ≤ q.den := by
      exact_mod_cast Nat.log2_self_le q.den_nz
    calc q = q.num / q.den := (Rat.num_div_den q).symm
      _ < 2 ^ (q.num.toNat.log2 + 1) / 2 ^ q.den.log2 :=
          div_lt_div₀ hnum hden (by positivity) (by positivity)
      _ = (2 : Rat) ^ ((q.num.toNat.log2 : Int) - q.den.log2 + 1) := by
          rw [sub_add_eq_add_sub, zpow_sub₀ (by norm_num), zpow_natCast]
          norm_cast
  · rw [sub_add_cancel]
    exact not_le.mp he

lemma exponent_lt_iff {q : Rat} (h : 0 < q) {e : Int} : exponent q < e ↔ q < (2 : Rat) ^ e := by
  constructor
  · intro he
    exact (lt_two_zpow_exponent_add_one h).trans_le (zpow_le_zpow_right₀ (by norm_num) he)
  · intro hq
    exact (zpow_lt_zpow_iff_right₀ (by norm_num)).mp ((two_zpow_exponent_le h).trans_lt hq)

/-! ### To 53 binary digits -/

lemma spacing_pos (q : Rat) : 0 < spacing q :=
  zpow_pos (by norm_num) _

lemma two_zpow_exponent_eq (q : Rat) : (2 : Rat) ^ exponent q = 2 ^ 52 * spacing q := by
  rw [spacing, ← zpow_natCast, ← zpow_add₀ (by norm_num)]
  congr 1
  omega

lemma round_of_nonpos {q : Rat} (h : q ≤ 0) : round q = 0 :=
  if_pos h

lemma round_of_pos {q : Rat} (h : 0 < q) :
    round q = roundHalfEven (q / spacing q) * spacing q :=
  if_neg (not_le.mpr h)

/-- Rounding moves a number by at most its part in `2 ^ 53`. -/
lemma abs_round_sub_le {q : Rat} (h : 0 ≤ q) : |round q - q| ≤ q / 2 ^ 53 := by
  rcases h.eq_or_lt with rfl | hpos
  · rw [round_of_nonpos le_rfl]
    norm_num
  have hs := spacing_pos q
  have hle : 2 ^ 52 * spacing q ≤ q := two_zpow_exponent_eq q ▸ two_zpow_exponent_le hpos
  calc |round q - q|
      = |(roundHalfEven (q / spacing q) : Rat) - q / spacing q| * spacing q := by
        rw [round_of_pos hpos, ← abs_of_pos hs, ← abs_mul, abs_of_pos hs, sub_mul,
          div_mul_cancel₀ q hs.ne']
    _ ≤ 1 / 2 * spacing q := by
        gcongr
        exact abs_roundHalfEven_sub_le _
    _ ≤ q / 2 ^ 53 := by linarith

/-- Numbers with at most 53 binary digits are rounded to themselves. -/
lemma round_eq_self {m : Nat} (hm : m < 2 ^ 53) (k : Int) :
    round (m * (2 : Rat) ^ k) = m * (2 : Rat) ^ k := by
  rcases m.eq_zero_or_pos with rfl | hpos
  · rw [Nat.cast_zero, zero_mul, round_of_nonpos le_rfl]
  have hm' : (m : Rat) < 2 ^ 53 := by exact_mod_cast hm
  have hk : (0 : Rat) < 2 ^ k := zpow_pos (by norm_num) k
  have hq : (0 : Rat) < m * 2 ^ k := mul_pos (by exact_mod_cast hpos) hk
  generalize hdef : (m : Rat) * 2 ^ k = q at hq ⊢
  have he : exponent q < 53 + k := by
    rw [exponent_lt_iff hq, ← hdef, zpow_add₀ (by norm_num)]
    exact mul_lt_mul_of_pos_right (by exact_mod_cast hm') hk
  -- the number is a multiple of the distance of its neighbours
  obtain ⟨j, hj⟩ := Int.eq_ofNat_of_zero_le (a := k - (exponent q - 52)) (by omega)
  have hpow : (2 : Rat) ^ k = 2 ^ j * spacing q := by
    rw [spacing, ← zpow_natCast, ← zpow_add₀ (by norm_num)]
    congr 1
    omega
  have hmultiple : q = ((m * 2 ^ j : Int) : Rat) * spacing q :=
    calc q = m * 2 ^ k := hdef.symm
      _ = ((m * 2 ^ j : Int) : Rat) * spacing q := by rw [hpow]; push_cast; ring
  rw [round_of_pos hq, (div_eq_iff (spacing_pos q).ne').mpr hmultiple, roundHalfEven_intCast]
  exact hmultiple.symm

lemma round_natCast {n : Nat} (h : n < 2 ^ 53) : round n = n := by
  simpa using round_eq_self h 0

lemma round_one : round 1 = 1 := by
  simpa using round_natCast (n := 1) (by norm_num)

/-- A number is rounded to one between the powers of two around it. -/
lemma round_between {q : Rat} (h : 0 < q) :
    (2 : Rat) ^ exponent q ≤ round q ∧ round q ≤ (2 : Rat) ^ (exponent q + 1) := by
  have hs := spacing_pos q
  have hpow : ∀ n : Nat, roundHalfEven (2 ^ n) = 2 ^ n := fun n => by
    exact_mod_cast roundHalfEven_intCast (2 ^ n)
  have hlo : (2 : Rat) ^ 52 ≤ q / spacing q := by
    rw [le_div_iff₀ hs, ← two_zpow_exponent_eq]
    exact two_zpow_exponent_le h
  have hhi : q / spacing q ≤ (2 : Rat) ^ 53 := by
    rw [div_le_iff₀ hs]
    have := (lt_two_zpow_exponent_add_one h).le
    rw [zpow_add_one₀ (by norm_num), two_zpow_exponent_eq] at this
    linarith
  have hlo' := roundHalfEven_mono hlo
  have hhi' := roundHalfEven_mono hhi
  rw [hpow] at hlo' hhi'
  rw [round_of_pos h, zpow_add_one₀ (by norm_num), two_zpow_exponent_eq]
  constructor
  · gcongr
    exact_mod_cast hlo'
  · calc (roundHalfEven (q / spacing q) : Rat) * spacing q ≤ 2 ^ 53 * spacing q := by
          gcongr
          exact_mod_cast hhi'
      _ = 2 ^ 52 * spacing q * 2 := by ring

/-- **Rounding keeps the order.** -/
lemma round_mono : Monotone round := by
  intro p q h
  rcases le_or_gt p 0 with hp | hp
  · rw [round_of_nonpos hp]
    rcases le_or_gt q 0 with hq | hq
    · exact (round_of_nonpos hq).ge
    · exact le_trans (by positivity) (round_between hq).1
  have hq := hp.trans_le h
  have hexp : exponent p ≤ exponent q := by
    rw [← Int.lt_add_one_iff, exponent_lt_iff hp]
    exact h.trans_lt (lt_two_zpow_exponent_add_one hq)
  rcases hexp.eq_or_lt with heq | hlt
  · -- both are rounded to multiples of one distance
    have hs : spacing p = spacing q := by rw [spacing, spacing, heq]
    rw [round_of_pos hp, round_of_pos hq, hs]
    have hrh := roundHalfEven_mono (div_le_div_of_nonneg_right h (spacing_pos q).le)
    exact mul_le_mul_of_nonneg_right (by exact_mod_cast hrh) (spacing_pos q).le
  · -- a power of two stands between them
    calc round p ≤ (2 : Rat) ^ (exponent p + 1) := (round_between hp).2
      _ ≤ (2 : Rat) ^ exponent q := zpow_le_zpow_right₀ (by norm_num) hlt
      _ ≤ round q := (round_between hq).1

lemma round_nonneg {q : Rat} (h : 0 ≤ q) : 0 ≤ round q :=
  (round_of_nonpos le_rfl).ge.trans (round_mono h)

lemma round_pos {q : Rat} (h : 0 < q) : 0 < round q :=
  (zpow_pos (by norm_num) _).trans_le (round_between h).1

/-! ### Rounded numbers -/

lemma quotient_of_pos {a b : Nat} (hb : 0 < b) : quotient a b = finite (round (a / b)) :=
  if_pos hb.ne'

lemma max_finite (p q : Rat) : max (finite p) (finite q) = finite (p ⊔ q) := by
  rw [max_def_lt]
  rfl

lemma max_finite_round (p q : Rat) :
    max (finite (round p)) (finite (round q)) = finite (round (p ⊔ q)) := by
  rw [round_mono.map_max, max_finite]

lemma min_finite (p q : Rat) : min (finite p) (finite q) = finite (p ⊓ q) := by
  rw [min_comm, min_def_lt]
  rfl

lemma min_finite_round (p q : Rat) :
    min (finite (round p)) (finite (round q)) = finite (round (p ⊓ q)) := by
  rw [round_mono.map_min, min_finite]

protected lemma min_assoc (x y z : Binary64) : min (min x y) z = min x (min y z) := by
  -- what is not finite is above all that is, so that only three finite numbers are left
  cases x <;> cases y <;> cases z <;> try rfl
  rw [min_finite, min_finite, min_finite, min_finite, inf_assoc]

end Binary64

end DocImage
