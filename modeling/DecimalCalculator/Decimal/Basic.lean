import DecimalCalculator.Decimal.Digits

/-!
# Decimals

`⟨d, s⟩` stands for the number `d * 10 ^ (-s)`: an integer and the place of its point. A number
has many decimals (`1.5` and `1.50`, `100` and `⟨1, -2⟩`), and they print differently, so every
operation fixes the scale of what it gives:

* `l + r`      the larger scale, but a zero operand adds at most 15 places;
* `l - r`      the larger scale;
* `l * r`      the sum of the scales, except that an operand that is one (`isOne`) leaves the
               other operand in its shortest form;
* `normalized` no trailing zero at all, so the scale may become negative;
* `reduced`    no trailing zero behind the point, and no negative scale.
-/

namespace DecimalCalculator

structure Decimal where
  digits : Int
  scale : Int
  deriving DecidableEq

namespace Decimal

def zero : Decimal := ⟨0, 0⟩
def one : Decimal := ⟨1, 0⟩

/-! ## change of scale -/

/-- the same number with `k` more places; a zero gets them without any arithmetic -/
def extend (d : Decimal) (k : Nat) : Decimal :=
  ⟨if d.digits = 0 then 0 else d.digits * tenPow k, d.scale + k⟩

/-- the digits of `d` when it is written at the scale `s`, for `d.scale ≤ s` -/
def digitsAt (d : Decimal) (s : Int) : Int := (d.extend (s - d.scale).toNat).digits

theorem extend_digits (d : Decimal) (k : Nat) : (d.extend k).digits = d.digits * tenPow k := by
  show (if d.digits = 0 then 0 else d.digits * tenPow k) = _
  split
  · next h => rw [h, Int.zero_mul]
  · rfl

theorem extend_scale (d : Decimal) (k : Nat) : (d.extend k).scale = d.scale + k := rfl

theorem digitsAt_eq (d : Decimal) (s : Int) :
    d.digitsAt s = d.digits * tenPow (s - d.scale).toNat := extend_digits d _

/-- no trailing zero is left, and zero is `⟨0, 0⟩` -/
def normalized (d : Decimal) : Decimal :=
  if d.digits = 0 then zero
  else
    let n := d.digits.natAbs
    let (m, z) := stripZeros (blockLevel n) n
    ⟨d.digits.sign * m, d.scale - z⟩

theorem normalized_of_zero {d : Decimal} (h : d.digits = 0) : d.normalized = zero := if_pos h

theorem normalized_of_ne_zero {d : Decimal} (h : d.digits ≠ 0) :
    d.normalized =
      ⟨d.digits.sign * (stripZeros (blockLevel d.digits.natAbs) d.digits.natAbs).1,
        d.scale - (stripZeros (blockLevel d.digits.natAbs) d.digits.natAbs).2⟩ := if_neg h

theorem normalized_scale_le {d : Decimal} (h : d.digits ≠ 0) : d.normalized.scale ≤ d.scale := by
  rw [normalized_of_ne_zero h]
  show d.scale - _ ≤ d.scale
  omega

theorem normalized_scale_le_of_nonneg {d : Decimal} {n : Int} (hn : 0 ≤ n) (h : d.scale ≤ n) :
    d.normalized.scale ≤ n := by
  by_cases h0 : d.digits = 0
  · rw [normalized_of_zero h0]
    exact hn
  · exact Int.le_trans (normalized_scale_le h0) h

/-- the shortest decimal of the number whose scale is not negative -/
def reduced (d : Decimal) : Decimal :=
  let n := d.normalized
  if n.scale < 0 then ⟨n.digitsAt 0, 0⟩ else n

theorem reduced_scale_eq (d : Decimal) : d.reduced.scale = max d.normalized.scale 0 := by
  show (if d.normalized.scale < 0 then (⟨d.normalized.digitsAt 0, 0⟩ : Decimal)
    else d.normalized).scale = _
  split
  · next h => exact (Int.max_eq_right (Int.le_of_lt h)).symm
  · next h => exact (Int.max_eq_left (Int.not_lt.mp h)).symm

theorem reduced_scale_nonneg (d : Decimal) : 0 ≤ d.reduced.scale := by
  rw [reduced_scale_eq]
  exact Int.le_max_right ..

theorem reduced_scale_le {d : Decimal} (h : 0 ≤ d.scale) : d.reduced.scale ≤ d.scale := by
  rw [reduced_scale_eq]
  exact Int.max_le.mpr ⟨normalized_scale_le_of_nonneg h (Int.le_refl _), h⟩

/-- no digit but zero behind the point -/
def isWhole (d : Decimal) : Bool := decide (d.normalized.scale ≤ 0)

/-- one, written with at most 38 places -/
def isOne (d : Decimal) : Bool :=
  decide (0 ≤ d.scale ∧ d.scale ≤ 38 ∧ d.digits = tenPow d.scale.toNat)

/-! ## arithmetic -/

def neg (d : Decimal) : Decimal := ⟨-d.digits, d.scale⟩

/-- a zero operand widens the other one by at most this many places -/
def zeroWidening : Nat := 15

/-- the larger scale, except beside a zero -/
def add (l r : Decimal) : Decimal :=
  if r.digits = 0 then l.extend (min (r.scale - l.scale).toNat zeroWidening)
  else if l.digits = 0 then r.extend (min (l.scale - r.scale).toNat zeroWidening)
  else
    let s := max l.scale r.scale
    ⟨l.digitsAt s + r.digitsAt s, s⟩

/-- the larger scale, also beside a zero -/
def sub (l r : Decimal) : Decimal :=
  let s := max l.scale r.scale
  ⟨l.digitsAt s - r.digitsAt s, s⟩

/-- the sum of the scales, except beside a one -/
def mul (l r : Decimal) : Decimal :=
  if l.isOne then r.normalized
  else if r.isOne then l.normalized
  else ⟨l.digits * r.digits, l.scale + r.scale⟩

instance : Neg Decimal := ⟨neg⟩
instance : Add Decimal := ⟨add⟩
instance : Sub Decimal := ⟨sub⟩
instance : Mul Decimal := ⟨mul⟩

theorem neg_digits (d : Decimal) : (-d).digits = -d.digits := rfl
theorem neg_scale (d : Decimal) : (-d).scale = d.scale := rfl

theorem add_of_zero_right {r : Decimal} (hr : r.digits = 0) (l : Decimal) :
    l + r = l.extend (min (r.scale - l.scale).toNat zeroWidening) := by
  show add l r = _
  rw [add, if_pos hr]

theorem add_of_zero_left {l r : Decimal} (hl : l.digits = 0) (hr : r.digits ≠ 0) :
    l + r = r.extend (min (l.scale - r.scale).toNat zeroWidening) := by
  show add l r = _
  rw [add, if_neg hr, if_pos hl]

theorem add_of_ne_zero {l r : Decimal} (hl : l.digits ≠ 0) (hr : r.digits ≠ 0) :
    l + r = ⟨l.digitsAt (max l.scale r.scale) + r.digitsAt (max l.scale r.scale),
      max l.scale r.scale⟩ := by
  show add l r = _
  rw [add, if_neg hr, if_neg hl]

/-- a sum is written at a scale between those of its operands -/
theorem add_scale_between (l r : Decimal) :
    min l.scale r.scale ≤ (l + r).scale ∧ (l + r).scale ≤ max l.scale r.scale := by
  by_cases hr : r.digits = 0
  · rw [add_of_zero_right hr, extend_scale]
    omega
  · by_cases hl : l.digits = 0
    · rw [add_of_zero_left hl hr, extend_scale]
      omega
    · rw [add_of_ne_zero hl hr]
      exact ⟨Int.le_trans (Int.min_le_left ..) (Int.le_max_left ..), Int.le_refl _⟩

theorem sub_scale (l r : Decimal) : (l - r).scale = max l.scale r.scale := rfl
theorem sub_digits (l r : Decimal) :
    (l - r).digits = l.digitsAt (max l.scale r.scale) - r.digitsAt (max l.scale r.scale) := rfl

theorem mul_of_isOne_left {l : Decimal} (h : l.isOne = true) (r : Decimal) :
    l * r = r.normalized := by
  show mul l r = _
  rw [mul, if_pos h]

theorem mul_of_isOne_right {l r : Decimal} (hl : l.isOne = false) (hr : r.isOne = true) :
    l * r = l.normalized := by
  show mul l r = _
  rw [mul, if_neg (by simp [hl]), if_pos hr]

theorem mul_of_not_isOne {l r : Decimal} (hl : l.isOne = false) (hr : r.isOne = false) :
    l * r = ⟨l.digits * r.digits, l.scale + r.scale⟩ := by
  show mul l r = _
  rw [mul, if_neg (by simp [hl]), if_neg (by simp [hr])]

end Decimal

end DecimalCalculator
