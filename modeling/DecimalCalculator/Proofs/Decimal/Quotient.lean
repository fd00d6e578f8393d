import Mathlib
import DecimalCalculator.Proofs.Decimal.Rational

/-!
# Which decimal a quotient is

`toRat_divide` says which number a quotient is. A number has many decimals; a quotient is its
reduced one, and there is no other (`IsReduced.eq_of_toRat_eq`). So the relation

    IsRounded scale x v     `v` is the number `x` to `scale` places, in reduced form

has one `v` for each `x`, and `divide_eq_ok_iff_isRounded` says that a division computes it. How
the operands are written shows only in the shift, which may be too large.
-/

namespace DecimalCalculator

namespace Decimal

/-! ## reduced decimals -/

/-- no negative scale, and no trailing zero behind the point -/
structure IsReduced (d : Decimal) : Prop where
  scale_nonneg : 0 ≤ d.scale
  not_dvd_digits : 0 < d.scale → ¬ 10 ∣ d.digits

theorem isReduced_reduced (d : Decimal) : d.reduced.IsReduced := by
  refine ⟨reduced_scale_nonneg d, ?_⟩
  show 0 < (if d.normalized.scale < 0 then (⟨d.normalized.digitsAt 0, 0⟩ : Decimal)
      else d.normalized).scale →
    ¬ 10 ∣ (if d.normalized.scale < 0 then (⟨d.normalized.digitsAt 0, 0⟩ : Decimal)
      else d.normalized).digits
  split_ifs with hneg
  · exact fun hpos => absurd hpos (lt_irrefl 0)
  · intro hpos
    refine not_dvd_digits_normalized fun h0 => ?_
    rw [normalized_of_zero h0] at hpos
    exact absurd hpos (by decide)

/-- a number has one reduced decimal -/
theorem IsReduced.eq_of_toRat_eq {l r : Decimal} (hl : l.IsReduced) (hr : r.IsReduced)
    (h : l.toRat = r.toRat) : l = r := by
  rcases le_total l.scale r.scale with hle | hle
  · exact eq_of_toRat_eq_of_le hle (fun hlt => hr.not_dvd_digits (hl.scale_nonneg.trans_lt hlt)) h
  · exact (eq_of_toRat_eq_of_le hle
      (fun hlt => hl.not_dvd_digits (hr.scale_nonneg.trans_lt hlt)) h.symm).symm

theorem isReduced_zero : zero.IsReduced := ⟨le_rfl, fun h => absurd h (by decide)⟩

theorem IsReduced.eq_zero {d : Decimal} (h : d.IsReduced) (h0 : d.toRat = 0) : d = zero :=
  h.eq_of_toRat_eq isReduced_zero (h0.trans (toRat_eq_zero_iff.mpr rfl).symm)

theorem reduced_scale_le_max (d : Decimal) : d.reduced.scale ≤ max d.scale 0 := by
  rw [reduced_scale_eq]
  exact max_le (normalized_scale_le_of_nonneg (le_max_right _ _) (le_max_left _ _))
    (le_max_right _ _)

/-! ## rounded numbers -/

/-- `v` is `x` to `scale` places, a half to the even neighbour, in reduced form -/
structure IsRounded (scale : ℤ) (x : ℚ) (v : Decimal) : Prop where
  nearest : ∃ q : ℤ, NearestEven (x * 10 ^ scale) q ∧ v.toRat = q * 10 ^ (-scale)
  isReduced : v.IsReduced
  scale_le : v.scale ≤ max scale 0

theorem IsRounded.toRat_eq {scale : ℤ} {x : ℚ} {v : Decimal} (h : IsRounded scale x v) :
    v.toRat = roundTo scale x := by
  obtain ⟨q, hq, hv⟩ := h.nearest
  rw [hv, hq.eq_roundEven]
  rfl

theorem IsRounded.unique {scale : ℤ} {x : ℚ} {v w : Decimal} (hv : IsRounded scale x v)
    (hw : IsRounded scale x w) : v = w :=
  hv.isReduced.eq_of_toRat_eq hw.isReduced (hv.toRat_eq.trans hw.toRat_eq.symm)

/-! ## quotients -/

variable {l r v : Decimal} {scale : ℤ}

theorem isRounded_reduced_halfEven (l : Decimal) {r : Decimal} (h0 : r.digits ≠ 0) (scale : ℤ) :
    IsRounded scale (l.toRat / r.toRat)
      (reduced ⟨halfEven (l.extend (scale + r.scale - l.scale).toNat).digits
        (r.extend (-(scale + r.scale - l.scale)).toNat).digits, scale⟩) := by
  refine ⟨⟨_, ?_, by rw [toRat_reduced, toRat_mk]⟩, isReduced_reduced _, reduced_scale_le_max _⟩
  rw [← digits_extend_div]
  exact nearestEven_halfEven (extend_digits_ne_zero h0 _) _

/-- a division computes the rounded quotient, unless the divisor is zero or a shift too large -/
theorem divide_eq_ok_iff_isRounded :
    divide l r scale = .ok v ↔ r.digits ≠ 0 ∧ (scale + r.scale - l.scale).natAbs ≤ maxShift ∧
      IsRounded scale (l.toRat / r.toRat) v := by
  rw [divide_eq_ok_iff]
  refine and_congr_right fun h0 => and_congr_right fun _ => ?_
  have hround := isRounded_reduced_halfEven l h0 scale
  exact ⟨fun hv => hv ▸ hround, fun hv => hv.unique hround⟩

/-- there are no other reasons to refuse a division -/
theorem exists_divide_iff :
    (∃ v, divide l r scale = .ok v) ↔
      r.digits ≠ 0 ∧ (scale + r.scale - l.scale).natAbs ≤ maxShift := by
  constructor
  · rintro ⟨v, hv⟩
    obtain ⟨h0, hshift, -⟩ := divide_eq_ok_iff_isRounded.mp hv
    exact ⟨h0, hshift⟩
  · rintro ⟨h0, hshift⟩
    exact ⟨_, divide_eq_ok_iff_isRounded.mpr ⟨h0, hshift, isRounded_reduced_halfEven l h0 scale⟩⟩

/-- A division fails exactly for a zero divisor or a shift of more than 32 bits. Otherwise it gives
the integer nearest to the quotient at that scale, the even one of two, as a decimal in reduced
form: so the numbers of the operands decide all of the result. -/
theorem divide_correctly_rounded (l r : Decimal) (scale : ℤ) :
    ((∃ e, divide l r scale = .error e) ↔
      r.toRat = 0 ∨ 2 ^ 32 - 1 < |scale + r.scale - l.scale|) ∧
    (¬(r.toRat = 0 ∨ 2 ^ 32 - 1 < |scale + r.scale - l.scale|) →
      ∃ v, divide l r scale = .ok v ∧
        (∃ q : ℤ, NearestEven (l.toRat / r.toRat * 10 ^ scale) q ∧ v.toRat = q * 10 ^ (-scale)) ∧
        0 ≤ v.scale ∧ v.scale ≤ max scale 0 ∧ (0 < v.scale → ¬ 10 ∣ v.digits) ∧
        (v.toRat = 0 → v.digits = 0 ∧ v.scale = 0)) ∧
    ∀ l' r' v v', l'.toRat = l.toRat → r'.toRat = r.toRat → divide l r scale = .ok v →
      divide l' r' scale = .ok v' → v' = v := by
  have hbound : maxShift = 2 ^ 32 - 1 := rfl
  have hguard : ¬(r.toRat = 0 ∨ 2 ^ 32 - 1 < |scale + r.scale - l.scale|) ↔
      ∃ v, divide l r scale = .ok v := by
    rw [exists_divide_iff, not_or, toRat_eq_zero_iff, Int.abs_eq_natAbs]
    omega
  refine ⟨?_, ?_, ?_⟩
  · rw [← not_iff_not, hguard]
    cases divide l r scale <;> simp
  · intro h
    obtain ⟨v, hv⟩ := hguard.mp h
    obtain ⟨-, -, hround⟩ := divide_eq_ok_iff_isRounded.mp hv
    refine ⟨v, hv, hround.nearest, hround.isReduced.scale_nonneg, hround.scale_le,
      hround.isReduced.not_dvd_digits, fun h0 => ?_⟩
    rw [hround.isReduced.eq_zero h0]
    exact ⟨rfl, rfl⟩
  · intro l' r' v v' hl hr hv hv'
    obtain ⟨-, -, hround⟩ := divide_eq_ok_iff_isRounded.mp hv
    obtain ⟨-, -, hround'⟩ := divide_eq_ok_iff_isRounded.mp hv'
    rw [hl, hr] at hround'
    exact hround'.unique hround

example : divide ⟨-1, 0⟩ ⟨8, 0⟩ 2 = .ok ⟨-12, 2⟩ := by decide +kernel

end Decimal

end DecimalCalculator
