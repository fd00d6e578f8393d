import Mathlib
import DecimalCalculator.Decimal.Power
import DecimalCalculator.Proofs.Decimal.Rounding

/-!
# Decimals as rational numbers

`toRat` is the number that a decimal stands for. What an operation gives as a decimal depends on how
its operands are written; the number depends on their numbers only:

    toRat_add, toRat_sub, toRat_mul    sums, differences and products are exact;
    toRat_natPower                     so are powers, whatever repeated squaring does to the scales;
    toRat_divide                       a quotient is rounded once, at the scale asked for;
    toRat_power                        so is a power with a negative exponent, and no other.
-/

namespace DecimalCalculator

theorem cast_tenPow (k : ℕ) : ((tenPow k : ℕ) : ℚ) = 10 ^ k := Nat.cast_pow 10 k

theorem ten_zpow_ne_zero (k : ℤ) : (10 : ℚ) ^ k ≠ 0 := zpow_ne_zero k (by norm_num)

/-- `x` to `scale` places, a half to the even neighbour -/
def roundTo (scale : ℤ) (x : ℚ) : ℚ := roundEven (x * 10 ^ scale) * 10 ^ (-scale)

theorem abs_sub_roundTo_le (scale : ℤ) (x : ℚ) :
    |x - roundTo scale x| ≤ 1 / 2 * 10 ^ (-scale) := by
  have hpos : (0 : ℚ) < 10 ^ (-scale) := zpow_pos (by norm_num) _
  have hx : x - roundTo scale x = (x * 10 ^ scale - roundEven (x * 10 ^ scale)) * 10 ^ (-scale) := by
    rw [sub_mul, mul_assoc x, ← zpow_add₀ (by norm_num), add_neg_cancel, zpow_zero, mul_one]
    rfl
  rw [hx, abs_mul, abs_of_pos hpos]
  exact mul_le_mul_of_nonneg_right (nearestEven_roundEven _).1 hpos.le

namespace Decimal

/-- the number that a decimal stands for -/
def toRat (d : Decimal) : ℚ := d.digits * 10 ^ (-d.scale)

theorem toRat_mk (n s : ℤ) : toRat ⟨n, s⟩ = n * 10 ^ (-s) := rfl

theorem toRat_int (n : ℤ) : toRat ⟨n, 0⟩ = n := by
  rw [toRat_mk, neg_zero, zpow_zero, mul_one]

theorem digits_eq (d : Decimal) : (d.digits : ℚ) = d.toRat * 10 ^ d.scale := by
  unfold toRat
  rw [mul_assoc, ← zpow_add₀ (by norm_num), neg_add_cancel, zpow_zero, mul_one]

theorem toRat_eq_zero_iff {d : Decimal} : d.toRat = 0 ↔ d.digits = 0 := by
  unfold toRat
  rw [mul_eq_zero, or_iff_left (ten_zpow_ne_zero _), Int.cast_eq_zero]

theorem toRat_one : one.toRat = 1 := by
  show ((1 : ℤ) : ℚ) * 10 ^ (-(0 : ℤ)) = 1
  norm_num

/-! ## change of scale -/

theorem toRat_shift (n s : ℤ) (k : ℕ) : toRat ⟨n * (tenPow k : ℕ), s + k⟩ = toRat ⟨n, s⟩ := by
  have hk : (10 : ℚ) ^ k ≠ 0 := pow_ne_zero k (by norm_num)
  rw [toRat_mk, toRat_mk, neg_add, zpow_add₀ (by norm_num), zpow_neg 10 (k : ℤ), zpow_natCast]
  push_cast
  rw [cast_tenPow]
  field_simp

theorem toRat_extend (d : Decimal) (k : ℕ) : (d.extend k).toRat = d.toRat := by
  show toRat ⟨(d.extend k).digits, d.scale + k⟩ = _
  rw [extend_digits, toRat_shift]

theorem toRat_digitsAt {d : Decimal} {s : ℤ} (h : d.scale ≤ s) :
    toRat ⟨d.digitsAt s, s⟩ = d.toRat := by
  have he := toRat_extend d (s - d.scale).toNat
  have hs : d.scale + ((s - d.scale).toNat : ℤ) = s := by omega
  unfold toRat at he
  rw [extend_scale, hs] at he
  exact he

/-- what the shortest form leaves out are zeros behind its digits -/
theorem exists_zeros_normalized {d : Decimal} (h : d.digits ≠ 0) :
    ∃ z : ℕ, d.digits = d.normalized.digits * (tenPow z : ℕ) ∧ d.scale = d.normalized.scale + z := by
  rw [normalized_of_ne_zero h]
  have hm := stripZeros_mul (blockLevel d.digits.natAbs) d.digits.natAbs
  generalize stripZeros (blockLevel d.digits.natAbs) d.digits.natAbs = mz at hm
  refine ⟨mz.2, ?_, (sub_add_cancel _ _).symm⟩
  show d.digits = d.digits.sign * mz.1 * (tenPow mz.2 : ℕ)
  rw [mul_assoc, ← Nat.cast_mul, hm, Int.sign_mul_natAbs]

theorem toRat_normalized (d : Decimal) : d.normalized.toRat = d.toRat := by
  by_cases h : d.digits = 0
  · rw [normalized_of_zero h, toRat_eq_zero_iff.mpr h]
    exact toRat_eq_zero_iff.mpr rfl
  · obtain ⟨z, hd, hs⟩ := exists_zeros_normalized h
    show _ = toRat ⟨d.digits, d.scale⟩
    rw [hd, hs, toRat_shift]

theorem toRat_reduced (d : Decimal) : d.reduced.toRat = d.toRat := by
  show toRat (if d.normalized.scale < 0 then ⟨d.normalized.digitsAt 0, 0⟩ else d.normalized) = _
  split_ifs with h
  · rw [toRat_digitsAt h.le, toRat_normalized]
  · exact toRat_normalized d

/-! ## shortest forms -/

theorem not_dvd_digits_normalized {d : Decimal} (h : d.digits ≠ 0) :
    ¬ 10 ∣ d.normalized.digits := by
  have hbound : d.digits.natAbs < tenPow (blockSize (blockLevel d.digits.natAbs) + 1) :=
    (lt_tenPow_blockSize _).trans_le
      (Nat.le_of_dvd (tenPow_pos _) (tenPow_dvd_tenPow (Nat.le_succ _)))
  have hstrip := not_dvd_stripZeros (k := blockLevel d.digits.natAbs)
    (Nat.not_dvd_of_pos_of_lt (Int.natAbs_pos.mpr h) hbound)
  rw [normalized_of_ne_zero h]
  rw [← Int.natAbs_dvd_natAbs]
  show ¬ 10 ∣ (d.digits.sign * _).natAbs
  rwa [Int.natAbs_mul, Int.natAbs_sign_of_ne_zero h, one_mul, Int.natAbs_natCast]

/-- at one scale there is one decimal of a number -/
theorem digits_inj {a b s : ℤ} (h : toRat ⟨a, s⟩ = toRat ⟨b, s⟩) : a = b := by
  have ha := digits_eq ⟨a, s⟩
  rw [h] at ha
  exact_mod_cast ha.trans (digits_eq ⟨b, s⟩).symm

/-- at two scales there may be another, but then it ends in a zero -/
theorem eq_of_toRat_eq_of_le {l r : Decimal} (hle : l.scale ≤ r.scale)
    (hr : l.scale < r.scale → ¬ 10 ∣ r.digits) (h : l.toRat = r.toRat) : l = r := by
  have hdigits : l.digitsAt r.scale = r.digits := digits_inj ((toRat_digitsAt hle).trans h)
  rw [digitsAt_eq] at hdigits
  rcases eq_or_lt_of_le hle with hscale | hlt
  · rw [hscale, sub_self, Int.toNat_zero, tenPow_zero, Nat.cast_one, mul_one] at hdigits
    cases l
    cases r
    exact congrArg₂ Decimal.mk hdigits hscale
  · have hten : (10 : ℤ) ∣ (tenPow (r.scale - l.scale).toNat : ℕ) := by
      exact_mod_cast tenPow_dvd_tenPow (a := 1) (b := (r.scale - l.scale).toNat) (by omega)
    exact absurd (hdigits ▸ hten.mul_left l.digits) (hr hlt)

/-- so there is one without trailing zeros at all scales -/
theorem eq_of_toRat_eq {l r : Decimal} (hl : ¬ 10 ∣ l.digits) (hr : ¬ 10 ∣ r.digits)
    (h : l.toRat = r.toRat) : l = r := by
  rcases le_total l.scale r.scale with hle | hle
  · exact eq_of_toRat_eq_of_le hle (fun _ => hr) h
  · exact (eq_of_toRat_eq_of_le hle (fun _ => hl) h.symm).symm

/-- two ways to write a number have one shortest form -/
theorem normalized_eq_of_toRat_eq {l r : Decimal} (h : l.toRat = r.toRat) :
    l.normalized = r.normalized := by
  by_cases h0 : l.digits = 0
  · have hr : r.digits = 0 := by rwa [← toRat_eq_zero_iff, ← h, toRat_eq_zero_iff]
    rw [normalized_of_zero h0, normalized_of_zero hr]
  · have hr : r.digits ≠ 0 := by rwa [Ne, ← toRat_eq_zero_iff, ← h, toRat_eq_zero_iff]
    refine eq_of_toRat_eq (not_dvd_digits_normalized h0) (not_dvd_digits_normalized hr) ?_
    rw [toRat_normalized, toRat_normalized, h]

/-- nothing is cut off exactly if there is no trailing zero -/
theorem normalized_scale_eq_iff {d : Decimal} (h : d.digits ≠ 0) :
    d.normalized.scale = d.scale ↔ ¬ 10 ∣ d.digits := by
  constructor
  · intro hs
    have hn : d.normalized.digits = d.digits := by
      refine digits_inj (s := d.scale) ?_
      show toRat ⟨d.normalized.digits, d.scale⟩ = d.toRat
      rw [← hs]
      exact toRat_normalized d
    rw [← hn]
    exact not_dvd_digits_normalized h
  · intro hd
    rw [eq_of_toRat_eq (not_dvd_digits_normalized h) hd (toRat_normalized d)]

theorem toRat_of_isOne {d : Decimal} (h : d.isOne = true) : d.toRat = 1 := by
  obtain ⟨h0, _, hd⟩ := of_decide_eq_true h
  have hk : d.scale = (d.scale.toNat : ℤ) := by omega
  unfold toRat
  rw [hd, Int.cast_natCast, cast_tenPow, hk, Int.toNat_natCast, zpow_neg, zpow_natCast]
  exact mul_inv_cancel₀ (pow_ne_zero _ (by norm_num))

/-! ## sums, differences and products -/

theorem toRat_add_mk (a b s : ℤ) : toRat ⟨a + b, s⟩ = toRat ⟨a, s⟩ + toRat ⟨b, s⟩ := by
  rw [toRat_mk, toRat_mk, toRat_mk, Int.cast_add, add_mul]

theorem toRat_sub_mk (a b s : ℤ) : toRat ⟨a - b, s⟩ = toRat ⟨a, s⟩ - toRat ⟨b, s⟩ := by
  rw [toRat_mk, toRat_mk, toRat_mk, Int.cast_sub, sub_mul]

theorem toRat_add (l r : Decimal) : (l + r).toRat = l.toRat + r.toRat := by
  by_cases hr : r.digits = 0
  · rw [add_of_zero_right hr, toRat_extend, toRat_eq_zero_iff.mpr hr, add_zero]
  · by_cases hl : l.digits = 0
    · rw [add_of_zero_left hl hr, toRat_extend, toRat_eq_zero_iff.mpr hl, zero_add]
    · rw [add_of_ne_zero hl hr, toRat_add_mk, toRat_digitsAt (le_max_left _ _),
        toRat_digitsAt (le_max_right _ _)]

theorem toRat_sub (l r : Decimal) : (l - r).toRat = l.toRat - r.toRat := by
  show toRat ⟨l.digitsAt (max l.scale r.scale) - r.digitsAt (max l.scale r.scale),
    max l.scale r.scale⟩ = _
  rw [toRat_sub_mk, toRat_digitsAt (le_max_left _ _), toRat_digitsAt (le_max_right _ _)]

theorem toRat_mul (l r : Decimal) : (l * r).toRat = l.toRat * r.toRat := by
  cases hl : l.isOne with
  | true => rw [mul_of_isOne_left hl, toRat_normalized, toRat_of_isOne hl, one_mul]
  | false =>
    cases hr : r.isOne with
    | true => rw [mul_of_isOne_right hl hr, toRat_normalized, toRat_of_isOne hr, mul_one]
    | false =>
      rw [mul_of_not_isOne hl hr]
      unfold toRat
      rw [neg_add, zpow_add₀ (by norm_num)]
      push_cast
      ring

end Decimal

/-! ## powers -/

/-- one step of repeated squaring leaves the number that is computed as it was -/
theorem Squaring.toRat_step (s : Squaring) :
    s.step.acc.toRat * s.step.base.toRat ^ s.step.remaining =
      s.acc.toRat * s.base.toRat ^ s.remaining := by
  have hacc : s.step.acc.toRat = s.acc.toRat * s.base.toRat ^ (s.remaining % 2) := by
    show (if s.remaining % 2 = 1 then s.acc * s.base else s.acc).toRat = _
    split_ifs with h
    · rw [Decimal.toRat_mul, h, pow_one]
    · rw [show s.remaining % 2 = 0 by omega, pow_zero, mul_one]
  -- without a rest the base is not squared, and its power is one either way
  have hbase : s.step.base.toRat ^ s.step.remaining = s.base.toRat ^ (2 * (s.remaining / 2)) := by
    show (if s.remaining / 2 = 0 then s.base else s.base * s.base).toRat ^ (s.remaining / 2) = _
    split_ifs with h
    · rw [h, mul_zero]
    · rw [Decimal.toRat_mul, ← pow_two, ← pow_mul]
  rw [hacc, hbase, mul_assoc, ← pow_add, Nat.mod_add_div]

theorem Squaring.toRat_run (s : Squaring) :
    s.run.toRat = s.acc.toRat * s.base.toRat ^ s.remaining := by
  induction hn : s.remaining using Nat.strongRecOn generalizing s with
  | ind n ih =>
    by_cases h : s.remaining = 0
    · rw [run_of_done h, ← hn, h, pow_zero, mul_one]
    · rw [run_step h, ih s.step.remaining (by rw [step_remaining]; omega) s.step rfl, toRat_step, hn]

namespace Decimal

theorem toRat_natPower (base : Decimal) (e : ℕ) : (base.natPower e).toRat = base.toRat ^ e := by
  unfold natPower
  rw [Squaring.toRat_run, toRat_one, one_mul]

/-! ## exponents -/

theorem scale_of_isWhole {d : Decimal} (h : d.isWhole = true) : d.normalized.scale ≤ 0 :=
  of_decide_eq_true h

/-- a whole number is the integer that is written at scale zero -/
theorem toRat_of_isWhole {d : Decimal} (h : d.isWhole = true) :
    d.toRat = d.normalized.digitsAt 0 := by
  rw [← toRat_normalized, ← toRat_digitsAt (scale_of_isWhole h), toRat_int]

theorem toRat_of_int64? {d : Decimal} (hw : d.isWhole = true) {e : ℤ} (h : d.int64? = some e) :
    d.toRat = e := by
  replace h : (if d.normalized.scale < -18 then none
    else if -int64Bound ≤ d.normalized.digitsAt 0 ∧ d.normalized.digitsAt 0 < int64Bound then
      some (d.normalized.digitsAt 0) else none) = some e := h
  split_ifs at h
  cases h
  exact toRat_of_isWhole hw

/-! ## quotients -/

/-- the integers that are divided stand for the quotient at its scale -/
theorem digits_extend_div (l r : Decimal) (scale : ℤ) :
    ((l.extend (scale + r.scale - l.scale).toNat).digits : ℚ) /
      (r.extend (-(scale + r.scale - l.scale)).toNat).digits =
      l.toRat / r.toRat * 10 ^ scale := by
  rw [digits_eq, digits_eq, toRat_extend, toRat_extend, extend_scale, extend_scale,
    mul_div_mul_comm, ← zpow_sub₀ (by norm_num)]
  congr 2
  omega

theorem extend_digits_ne_zero {d : Decimal} (h : d.digits ≠ 0) (k : ℕ) :
    (d.extend k).digits ≠ 0 := by
  intro h0
  rw [← toRat_eq_zero_iff, toRat_extend, toRat_eq_zero_iff] at h0
  exact h h0

theorem toRat_divide {l r v : Decimal} {scale : ℤ} (h : divide l r scale = .ok v) :
    r.toRat ≠ 0 ∧ v.toRat = roundTo scale (l.toRat / r.toRat) := by
  obtain ⟨h0, -, rfl⟩ := divide_eq_ok_iff.mp h
  refine ⟨fun hr => h0 (toRat_eq_zero_iff.mp hr), ?_⟩
  rw [toRat_reduced, toRat_mk, halfEven_eq_roundEven (extend_digits_ne_zero h0 _),
    digits_extend_div]
  rfl

/-- a power is exact, but for a negative exponent: then it is rounded once -/
theorem toRat_power {base exponent v : Decimal} {scale : ℤ}
    (h : power base exponent scale = .ok v) :
    ∃ e : ℤ, exponent.toRat = e ∧ (0 ≤ e → v.toRat = base.toRat ^ e.natAbs) ∧
      (e < 0 → base.toRat ≠ 0 ∧ v.toRat = roundTo scale (1 / base.toRat ^ e.natAbs)) := by
  obtain ⟨e, he, hcase⟩ := power_eq_ok_iff.mp h
  refine ⟨e, toRat_of_int64? he.isWhole he.int64_eq, ?_, ?_⟩
  · intro hnonneg
    rcases hcase with ⟨-, rfl⟩ | ⟨hneg, -, -⟩
    · exact toRat_natPower base e.natAbs
    · exact absurd hnonneg (not_le.mpr hneg)
  · intro hneg
    rcases hcase with ⟨hnonneg, -⟩ | ⟨-, h0, hv⟩
    · exact absurd hnonneg (not_le.mpr hneg)
    · refine ⟨fun hb => h0 (toRat_eq_zero_iff.mp hb), ?_⟩
      rw [(toRat_divide hv).2, toRat_one, toRat_natPower]

end Decimal

end DecimalCalculator
