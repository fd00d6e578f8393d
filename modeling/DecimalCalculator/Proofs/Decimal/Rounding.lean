import Mathlib
import DecimalCalculator.Decimal.Quotient

/-!
# Rounding to the nearest integer

`NearestEven x n` says what rounding should give: no integer is nearer to `x` than `n`, and of two
that are equally near `n` is the even one. There is one such integer only (`NearestEven.unique`),
so two ways to compute it agree:

* `roundEven x`     from the integer below `x` and what is left;
* `halfEven n m`    from the truncated quotient of two integers, and its remainder.
-/

namespace DecimalCalculator

/-- `n` is as near to `x` as an integer can be, and even if there is another one -/
def NearestEven (x : ℚ) (n : ℤ) : Prop := |x - n| ≤ 1 / 2 ∧ (|x - n| = 1 / 2 → Even n)

/-- two integers that both are nearest differ by one at most, and then both are even -/
theorem NearestEven.unique {x : ℚ} {a b : ℤ} (ha : NearestEven x a) (hb : NearestEven x b) :
    a = b := by
  obtain ⟨ha1, ha2⟩ := ha
  obtain ⟨hb1, hb2⟩ := hb
  by_contra hne
  have hd : |(a : ℚ) - b| ≤ |x - a| + |x - b| := by
    rw [abs_sub_comm x a]
    exact abs_sub_le (a : ℚ) x b
  have h1 : (1 : ℚ) ≤ |(a : ℚ) - b| := by
    exact_mod_cast Int.one_le_abs (sub_ne_zero.mpr hne)
  -- so both are at distance one half, and they are neighbours
  have hea : |x - a| = 1 / 2 := by linarith
  have heb : |x - b| = 1 / 2 := by linarith
  have hab : |a - b| = 1 := by
    have h : |(a : ℚ) - b| = 1 := by linarith
    exact_mod_cast h
  obtain ⟨i, hi⟩ := ha2 hea
  obtain ⟨j, hj⟩ := hb2 heb
  rcases abs_eq (zero_le_one' ℤ) |>.mp hab with h | h <;> omega

theorem nearestEven_add_one {x : ℚ} {q : ℤ} (hpos : 0 ≤ x - q) (hge : 1 / 2 ≤ |x - q|)
    (hlt : |x - q| < 1) (hodd : |x - q| = 1 / 2 → ¬ Even q) : NearestEven x (q + 1) := by
  have hd : |x - (q + 1 : ℤ)| = 1 - |x - q| := by
    rw [abs_of_nonneg hpos] at hlt ⊢
    push_cast
    rw [abs_of_nonpos (by linarith)]
    ring
  refine ⟨by linarith, fun h => ?_⟩
  exact (Int.not_even_iff_odd.mp (hodd (by linarith))).add_one

theorem nearestEven_sub_one {x : ℚ} {q : ℤ} (hneg : x - q ≤ 0) (hge : 1 / 2 ≤ |x - q|)
    (hlt : |x - q| < 1) (hodd : |x - q| = 1 / 2 → ¬ Even q) : NearestEven x (q - 1) := by
  have hd : |x - (q - 1 : ℤ)| = 1 - |x - q| := by
    rw [abs_of_nonpos hneg] at hlt ⊢
    push_cast
    rw [abs_of_nonneg (by linarith)]
    ring
  refine ⟨by linarith, fun h => ?_⟩
  exact (Int.not_even_iff_odd.mp (hodd (by linarith))).sub_odd odd_one

/-! ## by the integer below -/

/-- the integer nearest to `x`, of two the even one -/
def roundEven (x : ℚ) : ℤ :=
  let n := ⌊x⌋
  if x - n < 1 / 2 then n
  else if 1 / 2 < x - n then n + 1
  else if Even n then n else n + 1

theorem nearestEven_roundEven (x : ℚ) : NearestEven x (roundEven x) := by
  have hlo : (0 : ℚ) ≤ x - ⌊x⌋ := sub_nonneg.mpr (Int.floor_le x)
  have hhi : x - ⌊x⌋ < 1 := by linarith [Int.lt_floor_add_one x]
  have habs : |x - (⌊x⌋ : ℤ)| = x - ⌊x⌋ := abs_of_nonneg hlo
  show NearestEven x (if x - ⌊x⌋ < 1 / 2 then ⌊x⌋ else if 1 / 2 < x - ⌊x⌋ then ⌊x⌋ + 1
    else if Even ⌊x⌋ then ⌊x⌋ else ⌊x⌋ + 1)
  split_ifs with h1 h2 h3
  · exact ⟨by linarith, fun h => by linarith⟩
  · exact nearestEven_add_one hlo (by linarith) (by linarith) (fun h => by linarith)
  · exact ⟨by linarith, fun _ => h3⟩
  · exact nearestEven_add_one hlo (by linarith) (by linarith) (fun _ => h3)

theorem NearestEven.eq_roundEven {x : ℚ} {n : ℤ} (h : NearestEven x n) : n = roundEven x :=
  h.unique (nearestEven_roundEven x)

/-! ## by truncated division -/

/-- the remainder and the divisor have one sign if numerator and divisor have -/
theorem tmod_mul_nonneg {n m : ℤ} (h : n.sign = m.sign) : 0 ≤ n.tmod m * m := by
  rcases lt_trichotomy m 0 with hm | hm | hm
  · have hn : n < 0 := Int.sign_eq_neg_one_iff_neg.mp (h.trans (Int.sign_eq_neg_one_of_neg hm))
    have hr : 0 ≤ (-n).tmod m := Int.tmod_nonneg m (by omega)
    rw [Int.neg_tmod] at hr
    nlinarith
  · rw [hm, mul_zero]
  · have hn : 0 < n := Int.sign_eq_one_iff_pos.mp (h.trans (Int.sign_eq_one_of_pos hm))
    exact mul_nonneg (Int.tmod_nonneg m hn.le) hm.le

theorem tmod_mul_nonpos {n m : ℤ} (h : n.sign ≠ m.sign) : n.tmod m * m ≤ 0 := by
  rcases lt_trichotomy m 0 with hm | hm | hm
  · have hn : 0 ≤ n := by
      by_contra hn
      exact h ((Int.sign_eq_neg_one_of_neg (not_le.mp hn)).trans
        (Int.sign_eq_neg_one_of_neg hm).symm)
    exact mul_nonpos_of_nonneg_of_nonpos (Int.tmod_nonneg m hn) hm.le
  · rw [hm, mul_zero]
  · have hn : n ≤ 0 := by
      by_contra hn
      exact h ((Int.sign_eq_one_of_pos (not_le.mp hn)).trans (Int.sign_eq_one_of_pos hm).symm)
    have hr : 0 ≤ (-n).tmod m := Int.tmod_nonneg m (by omega)
    rw [Int.neg_tmod] at hr
    nlinarith

theorem abs_tmod_div (n m : ℤ) : |(n.tmod m : ℚ) / m| = ((n.tmod m).natAbs : ℚ) / m.natAbs := by
  rw [abs_div, Nat.cast_natAbs, Nat.cast_natAbs, Int.cast_abs, Int.cast_abs]

section
variable {n m : ℤ} (hm : m ≠ 0)
include hm

/-- what truncation cuts off -/
theorem sub_tdiv (n : ℤ) : (n : ℚ) / m - n.tdiv m = (n.tmod m : ℚ) / m := by
  have hq : (m : ℚ) ≠ 0 := by exact_mod_cast hm
  have h : (m : ℚ) * n.tdiv m + n.tmod m = n := by exact_mod_cast Int.mul_tdiv_add_tmod n m
  rw [eq_div_iff hq, sub_mul, div_mul_cancel₀ _ hq]
  linarith

theorem abs_tmod_div_lt_one (n : ℤ) : |(n.tmod m : ℚ) / m| < 1 := by
  have hp : 0 < m.natAbs := Int.natAbs_pos.mpr hm
  rw [abs_tmod_div, div_lt_one (by exact_mod_cast hp), Int.natAbs_tmod]
  exact_mod_cast Nat.mod_lt _ hp

theorem tmod_div_nonneg (h : n.sign = m.sign) : 0 ≤ (n.tmod m : ℚ) / m := by
  have hp : (0 : ℚ) ≤ n.tmod m * m := by exact_mod_cast tmod_mul_nonneg h
  have hq : (0 : ℚ) < (m : ℚ) * m := mul_self_pos.mpr (by exact_mod_cast hm)
  rw [← mul_div_mul_right _ _ (show (m : ℚ) ≠ 0 by exact_mod_cast hm)]
  exact div_nonneg hp hq.le

theorem tmod_div_nonpos (h : n.sign ≠ m.sign) : (n.tmod m : ℚ) / m ≤ 0 := by
  have hp : (n.tmod m : ℚ) * m ≤ 0 := by exact_mod_cast tmod_mul_nonpos h
  have hq : (0 : ℚ) < (m : ℚ) * m := mul_self_pos.mpr (by exact_mod_cast hm)
  rw [← mul_div_mul_right _ _ (show (m : ℚ) ≠ 0 by exact_mod_cast hm)]
  exact div_nonpos_of_nonpos_of_nonneg hp hq.le

theorem half_le_abs_tmod_div_iff (n : ℤ) :
    1 / 2 ≤ |(n.tmod m : ℚ) / m| ↔ m.natAbs ≤ 2 * (n.tmod m).natAbs := by
  have hp : (0 : ℚ) < m.natAbs := by exact_mod_cast Int.natAbs_pos.mpr hm
  rw [abs_tmod_div, div_le_div_iff₀ two_pos hp, one_mul, mul_comm]
  norm_cast

theorem abs_tmod_div_le_half_iff (n : ℤ) :
    |(n.tmod m : ℚ) / m| ≤ 1 / 2 ↔ 2 * (n.tmod m).natAbs ≤ m.natAbs := by
  have hp : (0 : ℚ) < m.natAbs := by exact_mod_cast Int.natAbs_pos.mpr hm
  rw [abs_tmod_div, div_le_div_iff₀ hp two_pos, one_mul, mul_comm]
  norm_cast

theorem abs_tmod_div_eq_half {n : ℤ} (h : |(n.tmod m : ℚ) / m| = 1 / 2) :
    2 * (n.tmod m).natAbs = m.natAbs := by
  have h1 := (half_le_abs_tmod_div_iff hm n).mp h.ge
  have h2 := (abs_tmod_div_le_half_iff hm n).mp h.le
  omega

/-- truncation and one step away from zero, where the remainder asks for it -/
theorem nearestEven_halfEven (n : ℤ) : NearestEven ((n : ℚ) / m) (halfEven n m) := by
  have hcut := sub_tdiv hm n
  show NearestEven _ (if m.natAbs < 2 * (n.tmod m).natAbs ∨
      (2 * (n.tmod m).natAbs = m.natAbs ∧ n.tdiv m % 2 ≠ 0) then
    if n.sign = m.sign then n.tdiv m + 1 else n.tdiv m - 1 else n.tdiv m)
  by_cases haway : m.natAbs < 2 * (n.tmod m).natAbs ∨
      (2 * (n.tmod m).natAbs = m.natAbs ∧ n.tdiv m % 2 ≠ 0)
  · rw [if_pos haway]
    have hge : 1 / 2 ≤ |(n : ℚ) / m - n.tdiv m| := by
      rw [hcut]
      exact (half_le_abs_tmod_div_iff hm n).mpr (by omega)
    have hlt : |(n : ℚ) / m - n.tdiv m| < 1 := by
      rw [hcut]
      exact abs_tmod_div_lt_one hm n
    have hodd : |(n : ℚ) / m - n.tdiv m| = 1 / 2 → ¬ Even (n.tdiv m) := by
      intro h
      rw [hcut] at h
      have h2 := abs_tmod_div_eq_half hm h
      rw [Int.even_iff]
      omega
    split_ifs with hs
    · refine nearestEven_add_one ?_ hge hlt hodd
      rw [hcut]
      exact tmod_div_nonneg hm hs
    · refine nearestEven_sub_one ?_ hge hlt hodd
      rw [hcut]
      exact tmod_div_nonpos hm hs
  · rw [if_neg haway]
    refine ⟨?_, fun h => ?_⟩
    · rw [hcut]
      exact (abs_tmod_div_le_half_iff hm n).mpr (by omega)
    · rw [hcut] at h
      have h2 := abs_tmod_div_eq_half hm h
      rw [Int.even_iff]
      omega

theorem halfEven_eq_roundEven (n : ℤ) : halfEven n m = roundEven ((n : ℚ) / m) :=
  (nearestEven_halfEven hm n).eq_roundEven

end

end DecimalCalculator
