import Mathlib
import DecimalCalculator.Decimal.Printer
import DecimalCalculator.Proofs.Decimal.Rational

/-!
# How large decimals become

A bound on the scale alone is not kept by the operations: a product may turn all digits of an
operand into places of a negative scale, and a difference may turn places into digits. What is kept
is a bound on both ends at once. `d.Within m` says that `d` has at most `m` places, on either side
of the point, and that its number is below `10 ^ m`. The bounds of two operands are added:

    within_add, within_sub     one more for a sum or a difference;
    within_mul                 no more for a product, however its factors are normalized;
    within_natPower            so a power is bounded by the multiple of the bound of its base;
    within_divide              one more, and the places asked for, for a quotient.
-/

namespace DecimalCalculator

namespace Decimal

/-- at most `m` places on either side of the point, and a number below `10 ^ m` -/
structure Within (m : ℕ) (d : Decimal) : Prop where
  scale_le : d.scale.natAbs ≤ m
  abs_lt : |d.toRat| < 10 ^ m

theorem Within.mono {m n : ℕ} {d : Decimal} (h : d.Within m) (hmn : m ≤ n) : d.Within n :=
  ⟨h.scale_le.trans hmn, h.abs_lt.trans_le (pow_le_pow_right₀ (by norm_num) hmn)⟩

/-! ## digits and numbers -/

theorem abs_toRat (d : Decimal) : |d.toRat| = d.digits.natAbs * 10 ^ (-d.scale) := by
  have hpos : (0 : ℚ) < 10 ^ (-d.scale) := zpow_pos (by norm_num) _
  unfold toRat
  rw [abs_mul, abs_of_pos hpos, Nat.cast_natAbs, Int.cast_abs]

/-- a number other than zero is not below the place of its last digit -/
theorem zpow_neg_scale_le {d : Decimal} (h : d.digits ≠ 0) :
    (10 : ℚ) ^ (-d.scale) ≤ |d.toRat| := by
  have hone : (1 : ℚ) ≤ d.digits.natAbs := by exact_mod_cast Int.natAbs_pos.mpr h
  rw [abs_toRat]
  exact le_mul_of_one_le_left (zpow_nonneg (by norm_num) _) hone

/-- so a number below `10 ^ m` has no digits all of which are beyond the place `m` -/
theorem neg_scale_lt {m : ℕ} {d : Decimal} (h : d.digits ≠ 0) (hlt : |d.toRat| < 10 ^ m) :
    -d.scale < m := by
  have hz : (10 : ℚ) ^ (-d.scale) < 10 ^ (m : ℤ) := by
    rw [zpow_natCast]
    exact (zpow_neg_scale_le h).trans_lt hlt
  exact (zpow_lt_zpow_iff_right₀ (by norm_num)).mp hz

/-- fewer than `k` digits and all places are in the bound -/
theorem within_of_digits {k : ℕ} {d : Decimal} (h : d.digits.natAbs < 10 ^ k) :
    d.Within (k + d.scale.natAbs) := by
  refine ⟨Nat.le_add_left _ _, ?_⟩
  have hdigits : (d.digits.natAbs : ℚ) < 10 ^ k := by exact_mod_cast h
  have hplaces : (10 : ℚ) ^ (-d.scale) ≤ 10 ^ d.scale.natAbs := by
    rw [← zpow_natCast]
    exact zpow_le_zpow_right₀ (by norm_num) (by omega)
  rw [abs_toRat, pow_add]
  exact mul_lt_mul hdigits hplaces (zpow_pos (by norm_num) _) (by positivity)

/-- a decimal within `m` has fewer than `2 * m` digits -/
theorem Within.natAbs_digits_lt {m : ℕ} {d : Decimal} (h : d.Within m) :
    d.digits.natAbs < 10 ^ (m + m) := by
  have hdigits : (d.digits.natAbs : ℚ) = |d.toRat| * 10 ^ d.scale := by
    rw [abs_toRat, mul_assoc, ← zpow_add₀ (by norm_num), neg_add_cancel, zpow_zero, mul_one]
  have hplaces : (10 : ℚ) ^ d.scale ≤ 10 ^ m := by
    rw [← zpow_natCast]
    exact zpow_le_zpow_right₀ (by norm_num) (by have := h.scale_le; omega)
  have hlt : (d.digits.natAbs : ℚ) < 10 ^ (m + m) := by
    rw [hdigits, pow_add]
    exact mul_lt_mul h.abs_lt hplaces (zpow_pos (by norm_num) _) (by positivity)
  exact_mod_cast hlt

/-! ## sums, differences and products -/

theorem ten_pow_add_ten_pow_le (a b : ℕ) : (10 : ℚ) ^ a + 10 ^ b ≤ 10 ^ (a + b + 1) := by
  have ha : (10 : ℚ) ^ a ≤ 10 ^ (a + b) := pow_le_pow_right₀ (by norm_num) (Nat.le_add_right a b)
  have hb : (10 : ℚ) ^ b ≤ 10 ^ (a + b) := pow_le_pow_right₀ (by norm_num) (Nat.le_add_left b a)
  have hpos : (0 : ℚ) < 10 ^ (a + b) := by positivity
  rw [pow_succ]
  linarith

section
variable {a b : ℕ} {l r : Decimal}

theorem within_one : one.Within 1 := ⟨by decide, by rw [toRat_one]; norm_num⟩

theorem within_normalized (h : r.Within b) : r.normalized.Within b := by
  refine ⟨?_, by rw [toRat_normalized]; exact h.abs_lt⟩
  by_cases h0 : r.digits = 0
  · rw [normalized_of_zero h0]
    exact Nat.zero_le b
  · have hn : r.normalized.digits ≠ 0 := by
      rwa [Ne, ← toRat_eq_zero_iff, toRat_normalized, toRat_eq_zero_iff]
    have hlow := neg_scale_lt hn (by rw [toRat_normalized]; exact h.abs_lt)
    have hhigh := normalized_scale_le h0
    have := h.scale_le
    omega

variable (hl : l.Within a) (hr : r.Within b)
include hl hr

theorem within_add : (l + r).Within (a + b + 1) := by
  have hls := hl.scale_le
  have hrs := hr.scale_le
  refine ⟨?_, ?_⟩
  · have hbetween := add_scale_between l r
    omega
  · rw [toRat_add]
    calc |l.toRat + r.toRat| ≤ |l.toRat| + |r.toRat| := abs_add_le _ _
      _ < 10 ^ a + 10 ^ b := add_lt_add hl.abs_lt hr.abs_lt
      _ ≤ 10 ^ (a + b + 1) := ten_pow_add_ten_pow_le a b

theorem within_sub : (l - r).Within (a + b + 1) := by
  have hls := hl.scale_le
  have hrs := hr.scale_le
  refine ⟨?_, ?_⟩
  · rw [sub_scale]
    omega
  · rw [toRat_sub]
    calc |l.toRat - r.toRat| ≤ |l.toRat| + |r.toRat| := abs_sub _ _
      _ < 10 ^ a + 10 ^ b := add_lt_add hl.abs_lt hr.abs_lt
      _ ≤ 10 ^ (a + b + 1) := ten_pow_add_ten_pow_le a b

theorem within_mul : (l * r).Within (a + b) := by
  cases hlo : l.isOne with
  | true =>
    rw [mul_of_isOne_left hlo]
    exact (within_normalized hr).mono (Nat.le_add_left b a)
  | false =>
    cases hro : r.isOne with
    | true =>
      rw [mul_of_isOne_right hlo hro]
      exact (within_normalized hl).mono (Nat.le_add_right a b)
    | false =>
      have hls := hl.scale_le
      have hrs := hr.scale_le
      refine ⟨?_, ?_⟩
      · rw [mul_of_not_isOne hlo hro]
        show (l.scale + r.scale).natAbs ≤ _
        omega
      · rw [toRat_mul, abs_mul, pow_add]
        exact mul_lt_mul'' hl.abs_lt hr.abs_lt (abs_nonneg _) (abs_nonneg _)

/-! ## quotients -/

omit hl hr in
theorem abs_roundTo_le {scale : ℤ} (h : 0 ≤ scale) (x : ℚ) : |roundTo scale x| ≤ |x| + 1 := by
  have hplace : (10 : ℚ) ^ (-scale) ≤ 1 := zpow_le_one_of_nonpos₀ (by norm_num) (by omega)
  have hdist := abs_sub_roundTo_le scale x
  have htriangle := abs_sub_abs_le_abs_sub (roundTo scale x) x
  rw [abs_sub_comm] at htriangle
  linarith

/-- a divisor other than zero is not smaller than its last place -/
theorem abs_div_lt (h0 : r.digits ≠ 0) : |l.toRat / r.toRat| < 10 ^ (a + b) := by
  have hpos : 0 < |r.toRat| := abs_pos.mpr fun h => h0 (toRat_eq_zero_iff.mp h)
  have hsmall : 1 ≤ 10 ^ b * |r.toRat| := by
    calc (1 : ℚ) = 10 ^ (b : ℤ) * 10 ^ (-(b : ℤ)) := by
          rw [← zpow_add₀ (by norm_num), add_neg_cancel, zpow_zero]
      _ ≤ 10 ^ (b : ℤ) * 10 ^ (-r.scale) := by
          have hscale : -(b : ℤ) ≤ -r.scale := by have := hr.scale_le; omega
          exact mul_le_mul_of_nonneg_left (zpow_le_zpow_right₀ (by norm_num) hscale)
            (zpow_nonneg (by norm_num) _)
      _ ≤ 10 ^ b * |r.toRat| := by
          rw [zpow_natCast]
          exact mul_le_mul_of_nonneg_left (zpow_neg_scale_le h0) (by positivity)
  rw [abs_div, div_lt_iff₀ hpos, pow_add, mul_assoc]
  exact hl.abs_lt.trans_le (le_mul_of_one_le_right (by positivity) hsmall)

theorem within_divide {scale : ℕ} {v : Decimal} (h : divide l r scale = .ok v) :
    v.Within (a + b + 1 + scale) := by
  obtain ⟨-, hv⟩ := toRat_divide h
  obtain ⟨h0, -, rfl⟩ := divide_eq_ok_iff.mp h
  refine ⟨?_, ?_⟩
  · generalize halfEven _ _ = q
    have hnonneg := reduced_scale_nonneg ⟨q, scale⟩
    have hle : (reduced ⟨q, scale⟩).scale ≤ scale := reduced_scale_le (Int.natCast_nonneg scale)
    show (reduced ⟨q, scale⟩).scale.natAbs ≤ _
    omega
  · rw [hv]
    calc |roundTo scale (l.toRat / r.toRat)| ≤ |l.toRat / r.toRat| + 1 :=
          abs_roundTo_le (Int.natCast_nonneg scale) _
      _ < 10 ^ (a + b) + 10 ^ 0 := add_lt_add_left (abs_div_lt hl hr h0) 1
      _ ≤ 10 ^ (a + b + 0 + 1) := ten_pow_add_ten_pow_le (a + b) 0
      _ ≤ 10 ^ (a + b + 1 + scale) := pow_le_pow_right₀ (by norm_num) (by omega)

end

end Decimal

/-! ## powers -/

/-- what is still to be multiplied keeps the bound of the whole power -/
theorem Squaring.exists_within_step {s : Squaring} {a b : ℕ} (ha : s.acc.Within a)
    (hb : s.base.Within b) :
    ∃ a' b', s.step.acc.Within a' ∧ s.step.base.Within b' ∧
      a' + s.step.remaining * b' = a + s.remaining * b := by
  refine ⟨a + s.remaining % 2 * b, if s.remaining / 2 = 0 then b else b + b, ?_, ?_, ?_⟩
  · show (if s.remaining % 2 = 1 then s.acc * s.base else s.acc).Within _
    split_ifs with h
    · rw [h, one_mul]
      exact Decimal.within_mul ha hb
    · exact ha.mono (Nat.le_add_right _ _)
  · show (if s.remaining / 2 = 0 then s.base else s.base * s.base).Within _
    split_ifs with h
    · exact hb
    · exact Decimal.within_mul hb hb
  · rw [step_remaining]
    have hrest : s.remaining / 2 * (if s.remaining / 2 = 0 then b else b + b) =
        2 * (s.remaining / 2) * b := by
      split_ifs with h
      · rw [h, zero_mul, mul_zero, zero_mul]
      · ring
    rw [hrest, add_assoc, ← add_mul, Nat.mod_add_div]

theorem Squaring.within_run {s : Squaring} {a b : ℕ} (ha : s.acc.Within a)
    (hb : s.base.Within b) : s.run.Within (a + s.remaining * b) := by
  induction hn : s.remaining using Nat.strongRecOn generalizing s a b with
  | ind n ih =>
    by_cases h : s.remaining = 0
    · rw [run_of_done h]
      exact ha.mono (Nat.le_add_right _ _)
    · obtain ⟨a', b', ha', hb', hsum⟩ := exists_within_step ha hb
      rw [run_step h, ← hn, ← hsum]
      exact ih s.step.remaining (by rw [step_remaining]; omega) ha' hb' rfl

namespace Decimal

theorem within_natPower {b : ℕ} {base : Decimal} (h : base.Within b) (e : ℕ) :
    (base.natPower e).Within (1 + e * b) := Squaring.within_run (s := ⟨one, base, e⟩) within_one h

theorem within_powerSize (base : Decimal) : base.Within base.powerSize := by
  refine within_of_digits ?_
  calc base.digits.natAbs < 2 ^ (base.digits.natAbs.log2 + 1) := Nat.lt_log2_self
    _ ≤ 10 ^ (base.digits.natAbs.log2 + 1) := Nat.pow_le_pow_left (by norm_num) _

/-- the size of a base is at most a multiple of its bound -/
theorem powerSize_le {m : ℕ} {base : Decimal} (h : base.Within m) :
    base.powerSize ≤ 9 * m + 1 := by
  have hlog : base.digits.natAbs.log2 ≤ 8 * m := by
    by_cases h0 : base.digits.natAbs = 0
    · rw [h0]
      exact Nat.zero_le _
    · refine (Nat.log2_lt h0).mpr ?_ |>.le
      calc base.digits.natAbs < 10 ^ (m + m) := h.natAbs_digits_lt
        _ ≤ 16 ^ (m + m) := Nat.pow_le_pow_left (by norm_num) _
        _ = 2 ^ (8 * m) := by rw [show 16 = 2 ^ 4 by norm_num, ← pow_mul]; congr 1; ring
  have := h.scale_le
  unfold powerSize
  omega

theorem within_natPower_of_admits {base exponent : Decimal} {e : ℤ}
    (h : Admits base exponent e) : (base.natPower e.natAbs).Within (1 + maxPowerSize) := by
  refine (within_natPower base.within_powerSize e.natAbs).mono ?_
  rw [mul_comm]
  exact Nat.add_le_add_left h.size_le 1

/-- the bound of a power does not depend on the bounds of its operands -/
theorem within_power {base exponent v : Decimal} {scale : ℕ}
    (h : power base exponent scale = .ok v) : v.Within (maxPowerSize + 3 + scale) := by
  obtain ⟨e, he, ⟨-, rfl⟩ | ⟨-, -, hv⟩⟩ := power_eq_ok_iff.mp h
  · exact (within_natPower_of_admits he).mono (by omega)
  · exact (within_divide within_one (within_natPower_of_admits he) hv).mono (by omega)

/-! ## written decimals -/

/-- all places of a decimal, and all of its digits -/
def width (d : Decimal) : ℕ := d.magnitude.length + d.scale.natAbs

theorem within_width (d : Decimal) : d.Within d.width := by
  refine within_of_digits ?_
  unfold magnitude
  rw [decimalDigits_eq]
  exact (Nat.length_toDigits_le_iff (by norm_num)
    (List.length_pos_iff.mpr Nat.toDigits_ne_nil)).mp le_rfl

end Decimal

end DecimalCalculator
