import Mathlib
import DecimalCalculator.Proofs.Decimal.Rational

/-!
# Repeated squaring, round by round

`Squaring.after base e n` is the state of the loop for `base ^ e` when `n` rounds are done: the
last `n` bits of `e` are gone, and the result so far is the power for these bits. Its base was
squared once in every round, but never beyond the highest bit of `e` (`base_after`).

The size of a decimal is the length of its digits in bits, and its places (`bitSize`). Sizes are
added by a product, and no shortest form is larger (`bitSize_mul_le`), so a power for the last bits
has at most a multiple of the size of the base. The limit on the whole power is then one on
everything that the loop holds (`rounds_bounded`).
-/

namespace DecimalCalculator

/-! ## sizes -/

theorem size_eq_log2_succ {n : ℕ} (h : n ≠ 0) : n.size = n.log2 + 1 :=
  le_antisymm (Nat.size_le.mpr Nat.lt_log2_self) (Nat.lt_size.mpr (Nat.log2_self_le h))

theorem le_log2_of_two_pow_le {n e : ℕ} (h : 2 ^ n ≤ e) : n ≤ e.log2 :=
  (Nat.le_log2 (by have := Nat.two_pow_pos n; omega)).mpr h

theorem log2_le_of_lt_two_pow {n e : ℕ} (h : e < 2 ^ (n + 1)) : e.log2 ≤ n := by
  by_cases h0 : e = 0
  · rw [h0, Nat.log2_zero]
    exact Nat.zero_le n
  · exact Nat.le_of_lt_succ ((Nat.log2_lt h0).mpr h)

theorem size_mul_le (a b : ℕ) : (a * b).size ≤ a.size + b.size := by
  rw [Nat.size_le, pow_add]
  exact Nat.mul_lt_mul'' (Nat.lt_size_self a) (Nat.lt_size_self b)

/-- a zero behind the digits takes a bit at least -/
theorem size_add_le_size_mul_tenPow {m : ℕ} (h : m ≠ 0) (z : ℕ) :
    m.size + z ≤ (m * tenPow z).size := by
  rw [size_eq_log2_succ h, Nat.add_right_comm, Nat.succ_le_iff, Nat.lt_size, pow_add]
  exact Nat.mul_le_mul (Nat.log2_self_le h) (Nat.pow_le_pow_left (by norm_num) z)

namespace Decimal

/-- the bits of the digits, and the places -/
def bitSize (d : Decimal) : ℕ := d.digits.natAbs.size + d.scale.natAbs

theorem powerSize_eq (d : Decimal) :
    d.powerSize = max d.digits.natAbs.size 1 + d.scale.natAbs := by
  unfold powerSize
  by_cases h : d.digits.natAbs = 0
  · rw [h]
    rfl
  · have hsize := size_eq_log2_succ h
    omega

theorem bitSize_le_powerSize (d : Decimal) : d.bitSize ≤ d.powerSize := by
  rw [powerSize_eq]
  exact Nat.add_le_add_right (le_max_left _ _) _

theorem bitSize_normalized_le (d : Decimal) : d.normalized.bitSize ≤ d.bitSize := by
  by_cases h : d.digits = 0
  · rw [normalized_of_zero h]
    exact Nat.zero_le _
  · obtain ⟨z, hd, hs⟩ := exists_zeros_normalized h
    have hn : d.normalized.digits.natAbs ≠ 0 := fun h0 => h (by
      rw [hd, Int.natAbs_eq_zero.mp h0, zero_mul])
    have hbits := size_add_le_size_mul_tenPow hn z
    rw [← Int.natAbs_natCast (tenPow z), ← Int.natAbs_mul, ← hd] at hbits
    -- as many places as zeros may be new, and each zero had a bit
    unfold bitSize
    omega

theorem bitSize_mul_le (l r : Decimal) : (l * r).bitSize ≤ l.bitSize + r.bitSize := by
  cases hl : l.isOne with
  | true =>
    rw [mul_of_isOne_left hl]
    exact (bitSize_normalized_le r).trans (Nat.le_add_left _ _)
  | false =>
    cases hr : r.isOne with
    | true =>
      rw [mul_of_isOne_right hl hr]
      exact (bitSize_normalized_le l).trans (Nat.le_add_right _ _)
    | false =>
      rw [mul_of_not_isOne hl hr]
      have hbits := size_mul_le l.digits.natAbs r.digits.natAbs
      have hplaces := Int.natAbs_add_le l.scale r.scale
      rw [← Int.natAbs_mul] at hbits
      show (l.digits * r.digits).natAbs.size + (l.scale + r.scale).natAbs ≤
        l.digits.natAbs.size + l.scale.natAbs + (r.digits.natAbs.size + r.scale.natAbs)
      omega

theorem one_mul_eq (d : Decimal) : one * d = d.normalized := mul_of_isOne_left (by decide) d

/-- the number times itself -/
def square (d : Decimal) : Decimal := d * d

theorem bitSize_iterate_square_le (d : Decimal) (k : ℕ) :
    (square^[k] d).bitSize ≤ 2 ^ k * d.bitSize := by
  induction k with
  | zero => exact (one_mul _).ge
  | succ k ih =>
    rw [Function.iterate_succ_apply', pow_succ, mul_assoc, mul_comm 2, ← mul_assoc, mul_two]
    exact (bitSize_mul_le _ _).trans (Nat.add_le_add ih ih)

end Decimal

/-! ## rounds -/

namespace Squaring

open Decimal

/-- the loop for `base ^ e` when `n` rounds are done -/
def after (base : Decimal) (e n : ℕ) : Squaring := step^[n] ⟨one, base, e⟩

variable {base : Decimal} {e : ℕ}

theorem after_succ (base : Decimal) (e n : ℕ) : after base e (n + 1) = (after base e n).step :=
  Function.iterate_succ_apply' ..

theorem remaining_after (base : Decimal) (e n : ℕ) : (after base e n).remaining = e / 2 ^ n := by
  induction n with
  | zero => exact (Nat.div_one e).symm
  | succ n ih => rw [after_succ, step_remaining, ih, Nat.div_div_eq_div_mul, pow_succ]

/-- a round squares the base only if the exponent has another bit -/
theorem base_after (base : Decimal) (e n : ℕ) :
    (after base e n).base = square^[min n e.log2] base := by
  induction n with
  | zero =>
    rw [Nat.zero_min]
    rfl
  | succ n ih =>
    have hrest : (after base e n).remaining / 2 = e / 2 ^ (n + 1) := by
      rw [remaining_after, Nat.div_div_eq_div_mul, pow_succ]
    rw [after_succ]
    show (if (after base e n).remaining / 2 = 0 then (after base e n).base
      else (after base e n).base.square) = _
    rw [hrest, ih]
    by_cases hbit : e < 2 ^ (n + 1)
    · have hlog := log2_le_of_lt_two_pow hbit
      rw [if_pos (Nat.div_eq_of_lt hbit), Nat.min_eq_right hlog,
        Nat.min_eq_right (hlog.trans n.le_succ)]
    · have hpos : 2 ^ (n + 1) ≤ e := Nat.not_lt.mp hbit
      have hlog := le_log2_of_two_pow_le hpos
      rw [if_neg (Nat.div_pos hpos (Nat.two_pow_pos _)).ne', Nat.min_eq_left hlog,
        Nat.min_eq_left (Nat.le_of_succ_le hlog), Function.iterate_succ_apply']

theorem run_of_step (s : Squaring) : s.step.run = s.run := by
  by_cases h : s.remaining = 0
  · have hrest : s.step.remaining = 0 := by rw [step_remaining, h]
    rw [run_of_done h, run_of_done hrest]
    show (if s.remaining % 2 = 1 then s.acc * s.base else s.acc) = s.acc
    rw [h]
    rfl
  · exact (run_step h).symm

theorem run_after (base : Decimal) (e n : ℕ) : (after base e n).run = base.natPower e := by
  induction n with
  | zero => rfl
  | succ n ih => rw [after_succ, run_of_step, ih]

/-- the loop ends when all bits of the exponent are gone -/
theorem done_after_size (base : Decimal) (e : ℕ) :
    (after base e e.size).remaining = 0 ∧ base.natPower e = (after base e e.size).acc := by
  have hdone : (after base e e.size).remaining = 0 := by
    rw [remaining_after, Nat.div_eq_of_lt (Nat.lt_size_self e)]
  refine ⟨hdone, ?_⟩
  rw [← run_after base e e.size, run_of_done hdone]

/-! ## what the loop holds -/

/-- The result for the last bits is one as long as these are zero. The first factor then takes its
place, in its shortest form, so one is no part of any later size. -/
theorem acc_after (base : Decimal) (e n : ℕ) :
    (e % 2 ^ n = 0 ∧ (after base e n).acc = one) ∨
      (after base e n).acc.bitSize ≤ e % 2 ^ n * base.bitSize := by
  induction n with
  | zero => exact Or.inl ⟨Nat.mod_one e, rfl⟩
  | succ n ih =>
    have hacc : (after base e (n + 1)).acc = if e / 2 ^ n % 2 = 1
        then (after base e n).acc * (after base e n).base else (after base e n).acc := by
      rw [after_succ, ← remaining_after base e n]
      rfl
    rw [hacc, Nat.mod_pow_succ]
    split_ifs with hbit
    · right
      -- this bit is set, so the base was squared in all rounds before
      have hle : 2 ^ n ≤ e := by
        by_contra hlt
        rw [Nat.div_eq_of_lt (Nat.not_le.mp hlt)] at hbit
        cases hbit
      have hbase : (after base e n).base.bitSize ≤ 2 ^ n * base.bitSize := by
        rw [base_after, Nat.min_eq_left (le_log2_of_two_pow_le hle)]
        exact bitSize_iterate_square_le base n
      rw [hbit, mul_one, add_mul]
      rcases ih with ⟨hzero, hone⟩ | hsize
      · rw [hone, one_mul_eq, hzero, zero_mul, zero_add]
        exact (bitSize_normalized_le _).trans hbase
      · exact (bitSize_mul_le _ _).trans (Nat.add_le_add hsize hbase)
    · have hzero : e / 2 ^ n % 2 = 0 := by omega
      rw [hzero, mul_zero, add_zero]
      exact ih

theorem bitSize_acc_after_le {m : ℕ} (hm : 1 ≤ m) (h : base.bitSize * e ≤ m) (n : ℕ) :
    (after base e n).acc.bitSize ≤ m := by
  rcases acc_after base e n with ⟨-, hone⟩ | hsize
  · rw [hone]
    exact hm
  · calc (after base e n).acc.bitSize ≤ e % 2 ^ n * base.bitSize := hsize
      _ ≤ e * base.bitSize := Nat.mul_le_mul_right _ (Nat.mod_le _ _)
      _ ≤ m := by rwa [mul_comm]

theorem bitSize_base_after_le {m : ℕ} (he : e ≠ 0) (h : base.bitSize * e ≤ m) (n : ℕ) :
    (after base e n).base.bitSize ≤ m := by
  have hwidth : 2 ^ min n e.log2 ≤ e :=
    (Nat.pow_le_pow_right (by norm_num) (Nat.min_le_right _ _)).trans (Nat.log2_self_le he)
  rw [base_after]
  calc (square^[min n e.log2] base).bitSize ≤ 2 ^ min n e.log2 * base.bitSize :=
        bitSize_iterate_square_le base _
    _ ≤ e * base.bitSize := Nat.mul_le_mul_right _ hwidth
    _ ≤ m := by rwa [mul_comm]

theorem bitSize_mul_le_of_admits {base exponent : Decimal} {e : ℤ} (h : Admits base exponent e) :
    base.bitSize * e.natAbs ≤ maxPowerSize :=
  (Nat.mul_le_mul_right _ base.bitSize_le_powerSize).trans h.size_le

theorem natAbs_scale_natPower_le {base exponent : Decimal} {e : ℤ} (h : Admits base exponent e) :
    (base.natPower e.natAbs).scale.natAbs ≤ maxPowerSize := by
  rw [(done_after_size base e.natAbs).2]
  exact (Nat.le_add_left _ _).trans
    (bitSize_acc_after_le (by decide) (bitSize_mul_le_of_admits h) e.natAbs.size)

/-- **The work of a power.** Where the exponent is admitted, no result and no base of any round is
larger than the limit; only to the power of zero the base, which stays as it is, may be. The base
is squared once for each bit behind the highest one, and never again. -/
theorem rounds_bounded {base exponent : Decimal} {e : ℤ} (h : Admits base exponent e) :
    (∀ n, (after base e.natAbs n).acc.bitSize ≤ 1000000 ∧
      ((after base e.natAbs n).base.bitSize ≤ 1000000 ∨
        e = 0 ∧ (after base e.natAbs n).base = base) ∧
      (after base e.natAbs n).base = square^[min n e.natAbs.log2] base) ∧
    (after base e.natAbs e.natAbs.size).remaining = 0 ∧
    base.natPower e.natAbs = (after base e.natAbs e.natAbs.size).acc := by
  have hsize : base.bitSize * e.natAbs ≤ 1000000 := bitSize_mul_le_of_admits h
  refine ⟨fun n => ⟨bitSize_acc_after_le (by norm_num) hsize n, ?_, base_after base _ n⟩,
    done_after_size base e.natAbs⟩
  by_cases h0 : e = 0
  · right
    refine ⟨h0, ?_⟩
    rw [base_after, h0]
    show square^[min n (Nat.log2 0)] base = base
    rw [Nat.log2_zero, Nat.min_zero]
    rfl
  · left
    exact bitSize_base_after_le (Int.natAbs_ne_zero.mpr h0) hsize n

/-- `1.5 ^ 5` is found in three rounds, with two squares -/
theorem rounds_bounded_fifth_power :
    Admits ⟨15, 1⟩ ⟨5, 0⟩ 5 ∧ (after ⟨15, 1⟩ 5 3).base = ⟨50625, 4⟩ ∧
      (after ⟨15, 1⟩ 5 3).acc.bitSize ≤ 1000000 ∧
      (natPower ⟨15, 1⟩ 5) = (after ⟨15, 1⟩ 5 3).acc := by
  have hadmits : Admits ⟨15, 1⟩ ⟨5, 0⟩ 5 := ⟨rfl, rfl, by decide +kernel⟩
  obtain ⟨hrounds, -, hpower⟩ := rounds_bounded hadmits
  obtain ⟨hacc, -, hbase⟩ := hrounds 3
  exact ⟨hadmits, hbase.trans (by decide +kernel), hacc, hpower⟩

end Squaring

end DecimalCalculator
