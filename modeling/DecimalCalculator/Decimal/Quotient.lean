import DecimalCalculator.Decimal.Basic
import DecimalCalculator.Decimal.Error

/-!
# Quotients

`divide l r scale` is the quotient to `scale` places, rounded once, with a half going to the even
neighbour, in reduced form. The operands are first brought to integers `n` and `m` with
`n / m = (l / r) * 10 ^ scale`, so the rounding is that of one integer division (`halfEven`).
-/

namespace DecimalCalculator

/-- `n / m` rounded to an integer, a half to the even neighbour -/
def halfEven (n m : Int) : Int :=
  let q := n.tdiv m
  let twice := 2 * (n.tmod m).natAbs
  if m.natAbs < twice ∨ (twice = m.natAbs ∧ q % 2 ≠ 0) then
    if n.sign = m.sign then q + 1 else q - 1
  else q

namespace Decimal

/-- the largest power of ten that an operand is multiplied by -/
def maxShift : Nat := 0xFFFFFFFF

/-- `l / r` to `scale` places, a half to the even neighbour -/
def divide (l r : Decimal) (scale : Int) : Except ArithmeticError Decimal :=
  if r.digits = 0 then .error .divisionByZero
  else
    let shift := scale + r.scale - l.scale
    if maxShift < shift.natAbs then .error .scaleOutOfRange
    else
      let n := (l.extend shift.toNat).digits
      let m := (r.extend (-shift).toNat).digits
      .ok (reduced ⟨halfEven n m, scale⟩)

theorem divide_of_zero {r : Decimal} (h : r.digits = 0) (l : Decimal) (scale : Int) :
    divide l r scale = .error .divisionByZero := if_pos h

/-- a quotient is that of two integers, unless the divisor is zero or a shift too large -/
theorem divide_eq_ok_iff {l r v : Decimal} {scale : Int} :
    divide l r scale = .ok v ↔ r.digits ≠ 0 ∧ (scale + r.scale - l.scale).natAbs ≤ maxShift ∧
      v = reduced ⟨halfEven (l.extend (scale + r.scale - l.scale).toNat).digits
        (r.extend (-(scale + r.scale - l.scale)).toNat).digits, scale⟩ := by
  by_cases h0 : r.digits = 0
  · rw [divide_of_zero h0]
    exact ⟨nofun, fun h => absurd h0 h.1⟩
  · have hdivide : divide l r scale =
        if maxShift < (scale + r.scale - l.scale).natAbs then .error .scaleOutOfRange
        else .ok (reduced ⟨halfEven (l.extend (scale + r.scale - l.scale).toNat).digits
          (r.extend (-(scale + r.scale - l.scale)).toNat).digits, scale⟩) := if_neg h0
    rw [hdivide]
    split
    · next hs => exact ⟨nofun, fun h => absurd h.2.1 (Nat.not_le.mpr hs)⟩
    · next hs =>
      constructor
      · intro h
        exact ⟨h0, Nat.not_lt.mp hs, (Except.ok.inj h).symm⟩
      · rintro ⟨-, -, rfl⟩
        rfl

end Decimal

end DecimalCalculator
