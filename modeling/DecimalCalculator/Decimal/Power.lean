import DecimalCalculator.Decimal.Quotient

/-!
# Powers

A power is computed by repeated squaring of the base (`Squaring`). The exponent must be a whole
number, and before anything is multiplied the size of the result is bounded: the length of the
base in bits and places, times the exponent, may not exceed `maxPowerSize`. A negative exponent
gives the quotient of one and the power, rounded as every quotient.
-/

namespace DecimalCalculator

/-! ## repeated squaring -/

/-- `acc * base ^ remaining` is still to be computed -/
structure Squaring where
  acc : Decimal
  base : Decimal
  remaining : Nat

namespace Squaring

/-- takes the last bit of the exponent; the base is squared only if another bit is left -/
def step (s : Squaring) : Squaring :=
  let rest := s.remaining / 2
  ⟨if s.remaining % 2 = 1 then s.acc * s.base else s.acc,
    if rest = 0 then s.base else s.base * s.base,
    rest⟩

theorem step_remaining (s : Squaring) : s.step.remaining = s.remaining / 2 := rfl

def run (s : Squaring) : Decimal :=
  if s.remaining = 0 then s.acc else s.step.run
termination_by s.remaining
decreasing_by rw [step_remaining]; omega

theorem run_of_done {s : Squaring} (h : s.remaining = 0) : s.run = s.acc := by
  rw [run, if_pos h]

theorem run_step {s : Squaring} (h : s.remaining ≠ 0) : s.run = s.step.run := by
  rw [run, if_neg h]

end Squaring

namespace Decimal

/-- `base ^ e` by repeated squaring -/
def natPower (base : Decimal) (e : Nat) : Decimal := Squaring.run ⟨one, base, e⟩

/-! ## exponents -/

/-- the first integer beyond those of 64 bits -/
def int64Bound : Int := 0x8000000000000000

/-- the integer of a whole number, if it is one of 64 bits -/
def int64? (d : Decimal) : Option Int :=
  let n := d.normalized
  if n.scale < -18 then none
  else
    let v := n.digitsAt 0
    if -int64Bound ≤ v ∧ v < int64Bound then some v else none

/-- an upper bound for bits and places of the base -/
def powerSize (base : Decimal) : Nat := base.digits.natAbs.log2 + 1 + base.scale.natAbs

/-- the size that a power may have -/
def maxPowerSize : Nat := 1000000

/-- `base` to the power of `exponent`; only a negative exponent rounds -/
def power (base exponent : Decimal) (scale : Int) : Except ArithmeticError Decimal :=
  if !exponent.isWhole then .error .fractionalExponent
  else match exponent.int64? with
    | none => .error .exponentTooLarge
    | some e =>
      if maxPowerSize < base.powerSize * e.natAbs then .error .powerTooLarge
      else if 0 ≤ e then .ok (base.natPower e.natAbs)
      else if base.digits = 0 then .error .zeroToNegativePower
      else divide one (base.natPower e.natAbs) scale

/-- the exponent is the integer `e` of 64 bits, and not too large for the base -/
structure Admits (base exponent : Decimal) (e : Int) : Prop where
  isWhole : exponent.isWhole = true
  int64_eq : exponent.int64? = some e
  size_le : base.powerSize * e.natAbs ≤ maxPowerSize

theorem power_of_admits {base exponent : Decimal} {e : Int} (h : Admits base exponent e)
    (scale : Int) :
    power base exponent scale =
      if 0 ≤ e then .ok (base.natPower e.natAbs)
      else if base.digits = 0 then .error .zeroToNegativePower
      else divide one (base.natPower e.natAbs) scale := by
  unfold power
  rw [h.isWhole, h.int64_eq]
  exact if_neg (Nat.not_lt.mpr h.size_le)

/-- only such an exponent gives a power -/
theorem exists_admits_of_power {base exponent v : Decimal} {scale : Int}
    (h : power base exponent scale = .ok v) : ∃ e, Admits base exponent e := by
  unfold power at h
  cases hw : exponent.isWhole with
  | false =>
    rw [hw] at h
    cases h
  | true =>
    cases he : exponent.int64? with
    | none =>
      rw [hw, he] at h
      cases h
    | some e =>
      refine ⟨e, hw, he, Nat.not_lt.mp fun hs => ?_⟩
      rw [hw, he] at h
      exact nomatch (if_pos hs).symm.trans h

/-- and a negative one only for a base other than zero -/
theorem power_eq_ok_iff {base exponent v : Decimal} {scale : Int} :
    power base exponent scale = .ok v ↔ ∃ e, Admits base exponent e ∧
      (0 ≤ e ∧ base.natPower e.natAbs = v ∨
        e < 0 ∧ base.digits ≠ 0 ∧ divide one (base.natPower e.natAbs) scale = .ok v) := by
  constructor
  · intro h
    obtain ⟨e, he⟩ := exists_admits_of_power h
    refine ⟨e, he, ?_⟩
    rw [power_of_admits he] at h
    split at h
    · next hnonneg => exact Or.inl ⟨hnonneg, Except.ok.inj h⟩
    · next hneg =>
      split at h
      · cases h
      · next h0 => exact Or.inr ⟨Int.not_le.mp hneg, h0, h⟩
  · rintro ⟨e, he, ⟨hnonneg, rfl⟩ | ⟨hneg, h0, hv⟩⟩
    · rw [power_of_admits he, if_pos hnonneg]
    · rw [power_of_admits he, if_neg (Int.not_le.mpr hneg), if_neg h0, hv]

end Decimal

end DecimalCalculator
