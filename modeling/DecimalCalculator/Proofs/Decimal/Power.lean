import Mathlib
import DecimalCalculator.Options
import DecimalCalculator.Proofs.Decimal.Magnitude
import DecimalCalculator.Proofs.Decimal.Quotient
import DecimalCalculator.Proofs.Decimal.Squaring
import DecimalCalculator.Proofs.Evaluation

/-!
# Which powers there are

Whether an exponent is admitted is decided by its number, and not by the way it is written:
`isWhole_iff` and `int64?_eq_some_iff` say so for the two tests, `admits_iff` for both together with
the limit on the size. There is one other reason to refuse a power, a base of zero under a negative
exponent (`exists_power_iff`): the limit also bounds the places of the power that a negative
exponent divides by, so this division always has a result.
-/

namespace DecimalCalculator

namespace Decimal

/-! ## exponents -/

theorem isWhole_iff {d : Decimal} : d.isWhole = true ↔ ∃ n : ℤ, d.toRat = n := by
  constructor
  · exact fun h => ⟨_, toRat_of_isWhole h⟩
  · rintro ⟨n, hn⟩
    have hform : d.normalized = (⟨n, 0⟩ : Decimal).normalized :=
      normalized_eq_of_toRat_eq (hn.trans (toRat_int n).symm)
    refine decide_eq_true ?_
    rw [hform]
    exact normalized_scale_le_of_nonneg le_rfl le_rfl

/-- a number of 64 bits does not end in 19 zeros -/
theorem normalized_scale_of_abs_le {d : Decimal} (h : |d.toRat| ≤ 2 ^ 63) :
    -18 ≤ d.normalized.scale := by
  by_cases h0 : d.digits = 0
  · rw [normalized_of_zero h0]
    decide
  · have hn : d.normalized.digits ≠ 0 := by
      rwa [Ne, ← toRat_eq_zero_iff, toRat_normalized, toRat_eq_zero_iff]
    have hlt : |d.normalized.toRat| < 10 ^ 19 := by
      rw [toRat_normalized]
      exact h.trans_lt (by norm_num)
    have hplaces := neg_scale_lt hn hlt
    omega

theorem int64?_eq_some_iff {d : Decimal} (hw : d.isWhole = true) {e : ℤ} :
    d.int64? = some e ↔ d.toRat = e ∧ -2 ^ 63 ≤ e ∧ e < 2 ^ 63 := by
  have hbound : int64Bound = 2 ^ 63 := rfl
  have hdef : d.int64? = if d.normalized.scale < -18 then none
      else if -int64Bound ≤ d.normalized.digitsAt 0 ∧ d.normalized.digitsAt 0 < int64Bound then
        some (d.normalized.digitsAt 0) else none := rfl
  have hnum := toRat_of_isWhole hw
  rw [hdef, hnum, Int.cast_inj, ← hbound]
  constructor
  · intro h
    split_ifs at h with _ hrange
    cases h
    exact ⟨rfl, hrange⟩
  · rintro ⟨he, hrange⟩
    rw [← he, hbound] at hrange
    have hscale : ¬ d.normalized.scale < -18 := by
      refine not_lt.mpr (normalized_scale_of_abs_le ?_)
      rw [hnum]
      exact_mod_cast abs_le.mpr ⟨hrange.1, hrange.2.le⟩
    rw [if_neg hscale, hbound, if_pos hrange, he]

theorem admits_iff {base exponent : Decimal} {e : ℤ} :
    Admits base exponent e ↔ exponent.toRat = e ∧ -2 ^ 63 ≤ e ∧ e < 2 ^ 63 ∧
      base.powerSize * e.natAbs ≤ maxPowerSize := by
  constructor
  · intro h
    obtain ⟨hnum, hlow, hhigh⟩ := (int64?_eq_some_iff h.isWhole).mp h.int64_eq
    exact ⟨hnum, hlow, hhigh, h.size_le⟩
  · rintro ⟨hnum, hlow, hhigh, hsize⟩
    have hwhole := isWhole_iff.mpr ⟨e, hnum⟩
    exact ⟨hwhole, (int64?_eq_some_iff hwhole).mpr ⟨hnum, hlow, hhigh⟩, hsize⟩

/-! ## powers -/

section
variable {base exponent v : Decimal} {e scale : ℤ}

/-- the places of a power are within its limit, so one can be divided by it -/
theorem exists_divide_one_natPower (h : Admits base exponent e) (h0 : base.digits ≠ 0)
    (hlow : 0 ≤ scale) (hmax : scale ≤ maxScale) :
    ∃ v, divide one (base.natPower e.natAbs) scale = .ok v := by
  refine exists_divide_iff.mpr ⟨?_, ?_⟩
  · rw [Ne, ← toRat_eq_zero_iff, toRat_natPower]
    exact pow_ne_zero _ fun h => h0 (toRat_eq_zero_iff.mp h)
  · have hplaces := Squaring.natAbs_scale_natPower_le h
    have hsize : maxPowerSize = 1000000 := rfl
    have hscale : maxScale = 10000 := rfl
    have hshift : maxShift = 4294967295 := rfl
    show (scale + (base.natPower e.natAbs).scale - 0).natAbs ≤ maxShift
    omega

/-- an admitted exponent has a power, unless it is negative and the base is zero -/
theorem exists_power_iff (hlow : 0 ≤ scale) (hmax : scale ≤ maxScale) :
    (∃ v, power base exponent scale = .ok v) ↔
      ∃ e, Admits base exponent e ∧ ¬(base.digits = 0 ∧ e < 0) := by
  constructor
  · rintro ⟨v, hv⟩
    obtain ⟨e, he, hcase⟩ := power_eq_ok_iff.mp hv
    refine ⟨e, he, fun ⟨hzero, hneg⟩ => ?_⟩
    rcases hcase with ⟨hnonneg, -⟩ | ⟨-, h0, -⟩
    · exact absurd hnonneg (not_le.mpr hneg)
    · exact h0 hzero
  · rintro ⟨e, he, hzero⟩
    rcases le_or_gt 0 e with hnonneg | hneg
    · exact ⟨_, power_eq_ok_iff.mpr ⟨e, he, Or.inl ⟨hnonneg, rfl⟩⟩⟩
    · have h0 : base.digits ≠ 0 := fun h0 => hzero ⟨h0, hneg⟩
      obtain ⟨v, hv⟩ := exists_divide_one_natPower he h0 hlow hmax
      exact ⟨v, power_eq_ok_iff.mpr ⟨e, he, Or.inr ⟨hneg, h0, hv⟩⟩⟩

theorem toRat_iterate_mul (base : Decimal) (n : ℕ) :
    ((· * base)^[n] one).toRat = base.toRat ^ n := by
  induction n with
  | zero => exact toRat_one.trans (pow_zero _).symm
  | succ n ih => rw [Function.iterate_succ_apply', toRat_mul, ih, pow_succ]

end

/-- A power exists exactly for a whole exponent of 64 bits that is not too large for the base, and
not negative over zero; all else is an invalid expression. For an exponent of zero or more it is the
base times itself so often, which the loop finds when no bit is left. For a negative one it is the
quotient of one and that power, rounded once. -/
theorem power_exact_or_rounded_once (base exponent : Decimal) {scale : ℤ} (hlow : 0 ≤ scale)
    (hmax : scale ≤ maxScale) :
    ((∃ v, power base exponent scale = .ok v) ↔
      ∃ e : ℤ, exponent.toRat = e ∧ -2 ^ 63 ≤ e ∧ e < 2 ^ 63 ∧
        (max base.digits.natAbs.size 1 + base.scale.natAbs) * e.natAbs ≤ 1000000 ∧
        ¬(base.toRat = 0 ∧ e < 0)) ∧
    (∀ cause below, power base exponent scale = .error cause →
      (Node.step scale (exponent :: base :: below) (.operator .pow)).outcome =
        .error (.invalidExpression (.arithmetic cause))) ∧
    ∀ (v : Decimal) (e : ℤ), power base exponent scale = .ok v → exponent.toRat = e →
      (0 ≤ e → v.toRat = base.toRat ^ e.natAbs ∧
        v.toRat = ((· * base)^[e.natAbs] one).toRat ∧
        ∃ n, (Squaring.after base e.natAbs n).remaining = 0 ∧
          (Squaring.after base e.natAbs n).acc = v) ∧
      (e < 0 → divide one (base.natPower e.natAbs) scale = .ok v ∧
        IsRounded scale (1 / base.toRat ^ e.natAbs) v) := by
  refine ⟨?_, ?_, ?_⟩
  · rw [exists_power_iff hlow hmax]
    refine exists_congr fun e => ?_
    rw [admits_iff, powerSize_eq, toRat_eq_zero_iff, and_assoc, and_assoc, and_assoc]
    rfl
  · intro cause below h
    have happly : Operator.pow.apply scale base exponent = .error cause := h
    rw [Node.outcome_step_operator, happly]
    rfl
  · intro v e hv hnum
    obtain ⟨e', he, hcase⟩ := power_eq_ok_iff.mp hv
    obtain rfl : e' = e := by
      have hnum' := (admits_iff.mp he).1
      exact_mod_cast hnum'.symm.trans hnum
    rcases hcase with ⟨hnonneg, rfl⟩ | ⟨hneg, h0, hquotient⟩
    · obtain ⟨hdone, hacc⟩ := Squaring.done_after_size base e'.natAbs
      refine ⟨fun _ => ⟨toRat_natPower base _, ?_, _, hdone, hacc.symm⟩,
        fun hneg => absurd hnonneg (not_le.mpr hneg)⟩
      rw [toRat_natPower, toRat_iterate_mul]
    · refine ⟨fun hnonneg => absurd hnonneg (not_le.mpr hneg), fun _ => ⟨hquotient, ?_⟩⟩
      obtain ⟨-, -, hround⟩ := divide_eq_ok_iff_isRounded.mp hquotient
      rwa [toRat_one, toRat_natPower] at hround

/-- `8 ^ -1.0` to two places -/
theorem power_exact_or_rounded_once_tie :
    (0 : ℤ) ≤ 2 ∧ (2 : ℤ) ≤ maxScale ∧ power ⟨8, 0⟩ ⟨-10, 1⟩ 2 = .ok ⟨12, 2⟩ ∧
      toRat ⟨-10, 1⟩ = (-1 : ℤ) ∧ IsRounded 2 (1 / toRat ⟨8, 0⟩ ^ 1) ⟨12, 2⟩ := by
  have hlow : (0 : ℤ) ≤ 2 := by decide
  have hmax : (2 : ℤ) ≤ maxScale := by decide
  have hpower : power ⟨8, 0⟩ ⟨-10, 1⟩ 2 = .ok ⟨12, 2⟩ := by decide +kernel
  have hnum : toRat ⟨-10, 1⟩ = (-1 : ℤ) := by
    rw [toRat_mk]
    norm_num
  obtain ⟨-, -, hvalue⟩ := power_exact_or_rounded_once ⟨8, 0⟩ ⟨-10, 1⟩ hlow hmax
  obtain ⟨-, hneg⟩ := hvalue _ _ hpower hnum
  exact ⟨hlow, hmax, hpower, hnum, (hneg (by decide)).2⟩

end Decimal

end DecimalCalculator
