/-!
# Decimal digits of natural numbers

Digits are written and trailing zeros are removed by halving: a number of `2 * m` digits is cut at
`tenPow m` into two numbers of `m` digits, so a digit takes part in as many divisions as there are
halvings, and not in one for each digit behind it.

* `tenPow k`              ten to the power `k`;
* `blockSize k`           the digits of a block that is halved `k` times;
* `digitBlock k n tail`   the last `blockSize k` digits of `n`, in front of `tail`;
* `decimalDigits n`       the digits of `n` without leading zeros;
* `stripZeros k n`        `n` without trailing zeros (`blockSize k` of them at most), and their
                          number.

`decimalDigits_eq` says that halving changes nothing: the digits are those of `Nat.toDigits`.
-/

namespace DecimalCalculator

/-! ## powers of ten -/

/-- ten to the power `k` -/
def tenPow (k : Nat) : Nat := Nat.pow 10 k

theorem tenPow_zero : tenPow 0 = 1 := rfl
theorem tenPow_succ (k : Nat) : tenPow (k + 1) = tenPow k * 10 := rfl
theorem tenPow_add (a b : Nat) : tenPow (a + b) = tenPow a * tenPow b := Nat.pow_add 10 a b
theorem tenPow_pos (k : Nat) : 0 < tenPow k := Nat.pow_pos (by decide)

theorem tenPow_dvd_tenPow {a b : Nat} (h : a ≤ b) : tenPow a ∣ tenPow b := Nat.pow_dvd_pow 10 h

/-! ## blocks -/

/-- the digits of a block that is halved `k` times -/
def blockSize (k : Nat) : Nat := Nat.pow 2 k

theorem blockSize_zero : blockSize 0 = 1 := rfl
theorem blockSize_succ (k : Nat) : blockSize (k + 1) = blockSize k + blockSize k :=
  (Nat.pow_succ (n := 2) (m := k)).trans (Nat.mul_two _)

/-- a block that is halved so often holds `n` -/
def blockLevel (n : Nat) : Nat := (n.log2 + 1).log2 + 1

theorem log2_lt_blockSize (n : Nat) : n.log2 + 1 < blockSize (blockLevel n) := Nat.lt_log2_self

theorem lt_tenPow_blockSize (n : Nat) : n < tenPow (blockSize (blockLevel n)) := by
  have h1 : n < Nat.pow 2 (n.log2 + 1) := Nat.lt_log2_self
  have h2 : Nat.pow 2 (n.log2 + 1) ≤ tenPow (n.log2 + 1) := Nat.pow_le_pow_left (by decide) _
  have h3 : tenPow (n.log2 + 1) ≤ tenPow (blockSize (blockLevel n)) :=
    Nat.pow_le_pow_right (by decide) (Nat.le_of_lt (log2_lt_blockSize n))
  omega

/-! ## writing -/

/-- the last `blockSize k` decimal digits of `n`, in front of `tail` -/
def digitBlock : Nat → Nat → List Char → List Char
  | 0, n, tail => Nat.digitChar (n % 10) :: tail
  | k + 1, n, tail =>
    let half := tenPow (blockSize k)
    digitBlock k (n / half) (digitBlock k (n % half) tail)

/-- the decimal digits of `n` without leading zeros; zero is the one digit `0` -/
def decimalDigits (n : Nat) : List Char :=
  match (digitBlock (blockLevel n) n []).dropWhile (· == '0') with
  | [] => ['0']
  | ds => ds

/-! ## trailing zeros -/

/-- `n` without its trailing zeros, `blockSize k` of them at most, and how many were removed -/
def stripZeros : Nat → Nat → Nat × Nat
  | 0, n => if n % 10 = 0 then (n / 10, 1) else (n, 0)
  | k + 1, n =>
    let half := tenPow (blockSize k)
    if n % half = 0 then
      let (m, z) := stripZeros k (n / half)
      (m, z + blockSize k)
    else stripZeros k n

theorem stripZeros_zero (n : Nat) :
    stripZeros 0 n = if n % 10 = 0 then (n / 10, 1) else (n, 0) := rfl
theorem stripZeros_succ (k n : Nat) :
    stripZeros (k + 1) n = if n % tenPow (blockSize k) = 0
      then ((stripZeros k (n / tenPow (blockSize k))).1,
        (stripZeros k (n / tenPow (blockSize k))).2 + blockSize k)
      else stripZeros k n := rfl

theorem stripZeros_mul (k n : Nat) : (stripZeros k n).1 * tenPow (stripZeros k n).2 = n := by
  induction k generalizing n with
  | zero =>
    rw [stripZeros_zero]
    split
    · next h => exact Nat.div_mul_cancel (Nat.dvd_of_mod_eq_zero h)
    · exact Nat.mul_one n
  | succ k ih =>
    rw [stripZeros_succ]
    split
    · next h =>
      show (stripZeros k _).1 * tenPow ((stripZeros k _).2 + blockSize k) = n
      rw [tenPow_add, ← Nat.mul_assoc, ih, Nat.div_mul_cancel (Nat.dvd_of_mod_eq_zero h)]
    · exact ih n

/-- no trailing zero is left if there were at most `blockSize k` -/
theorem not_dvd_stripZeros {k n : Nat} (h : ¬ tenPow (blockSize k + 1) ∣ n) :
    ¬ 10 ∣ (stripZeros k n).1 := by
  induction k generalizing n with
  | zero =>
    rw [stripZeros_zero]
    split
    · next h0 =>
      intro hd
      exact h (Nat.mul_dvd_of_dvd_div (Nat.dvd_of_mod_eq_zero h0) hd)
    · next h0 => exact fun hd => h0 (Nat.mod_eq_zero_of_dvd hd)
  | succ k ih =>
    rw [stripZeros_succ]
    split
    · next h0 =>
      refine ih fun hd => h ?_
      have hm := Nat.mul_dvd_of_dvd_div (Nat.dvd_of_mod_eq_zero h0) hd
      rwa [← tenPow_add, ← Nat.add_assoc, ← blockSize_succ] at hm
    · next h0 =>
      refine ih fun hd => h0 (Nat.mod_eq_zero_of_dvd (Nat.dvd_trans ?_ hd))
      exact tenPow_dvd_tenPow (Nat.le_succ _)

/-! ## the digits are the usual ones -/

/-- reference form of `digitBlock`: the last `m` digits of `n`, one after the other -/
def lastDigits : Nat → Nat → List Char
  | 0, _ => []
  | m + 1, n => lastDigits m (n / 10) ++ [Nat.digitChar (n % 10)]

theorem lastDigits_zero (n : Nat) : lastDigits 0 n = [] := rfl
theorem lastDigits_succ (m n : Nat) :
    lastDigits (m + 1) n = lastDigits m (n / 10) ++ [Nat.digitChar (n % 10)] := rfl

theorem lastDigits_add (a b n : Nat) :
    lastDigits (a + b) n = lastDigits a (n / tenPow b) ++ lastDigits b (n % tenPow b) := by
  induction b generalizing n with
  | zero => simp [lastDigits_zero, tenPow_zero]
  | succ b ih =>
    have hdiv : n / 10 / tenPow b = n / tenPow (b + 1) := by
      rw [Nat.div_div_eq_div_mul, tenPow_succ, Nat.mul_comm]
    have hmod : n % tenPow (b + 1) / 10 = n / 10 % tenPow b := by
      rw [tenPow_succ, Nat.mul_comm, Nat.mod_mul_right_div_self]
    have hlast : n % tenPow (b + 1) % 10 = n % 10 :=
      Nat.mod_mod_of_dvd n (by rw [tenPow_succ]; exact Nat.dvd_mul_left 10 (tenPow b))
    rw [← Nat.add_assoc, lastDigits_succ, ih, lastDigits_succ, hdiv, hmod, hlast,
      List.append_assoc]

theorem digitBlock_eq (k n : Nat) (tail : List Char) :
    digitBlock k n tail = lastDigits (blockSize k) n ++ tail := by
  induction k generalizing n tail with
  | zero => rfl
  | succ k ih =>
    show digitBlock k (n / tenPow (blockSize k)) (digitBlock k (n % tenPow (blockSize k)) tail) = _
    rw [ih, ih, blockSize_succ, lastDigits_add, List.append_assoc]

theorem dropWhile_lastDigits_zero (m : Nat) : (lastDigits m 0).dropWhile (· == '0') = [] := by
  induction m with
  | zero => rfl
  | succ m ih =>
    rw [lastDigits_succ, List.dropWhile_append, ih]
    rfl

theorem digitChar_ne_zero {n : Nat} (h0 : n ≠ 0) (h : n < 10) : Nat.digitChar n ≠ '0' := by
  intro e
  have h1 := Nat.toNat_digitChar_of_lt_ten h
  rw [e] at h1
  exact h0 (by simpa using h1)

theorem dropWhile_lastDigits {m n : Nat} (h0 : n ≠ 0) (h : n < tenPow m) :
    (lastDigits m n).dropWhile (· == '0') = Nat.toDigits 10 n := by
  induction m generalizing n with
  | zero => exact absurd (Nat.lt_one_iff.mp h) h0
  | succ m ih =>
    rw [lastDigits_succ, List.dropWhile_append]
    by_cases hn : n < 10
    · rw [Nat.div_eq_of_lt hn, dropWhile_lastDigits_zero, Nat.mod_eq_of_lt hn,
        Nat.toDigits_of_lt_base hn]
      simp [digitChar_ne_zero h0 hn]
    · have hq : n / 10 < tenPow m := Nat.div_lt_of_lt_mul (by rwa [Nat.mul_comm, ← tenPow_succ])
      rw [ih (by omega) hq, Nat.toDigits_eq_if (n := n) (by decide), if_neg hn, if_neg]
      simp [Nat.toDigits_ne_nil]

theorem decimalDigits_eq (n : Nat) : decimalDigits n = Nat.toDigits 10 n := by
  unfold decimalDigits
  rw [digitBlock_eq, List.append_nil]
  by_cases h0 : n = 0
  · subst h0
    rw [dropWhile_lastDigits_zero]
    rfl
  · rw [dropWhile_lastDigits h0 (lt_tenPow_blockSize n)]
    split
    · next h => exact absurd h Nat.toDigits_ne_nil
    · rfl

end DecimalCalculator
