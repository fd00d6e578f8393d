import Mathlib
import DecimalCalculator.Options
import DecimalCalculator.Proofs.Decimal.Magnitude
import DecimalCalculator.Proofs.Evaluation

/-!
# Scales stay within 64 bits

Places and sizes of the values on the stack are bounded together (`Decimal.Within`). An operator
adds the bounds of its operands and a constant, and only a power needs that constant to be large
(`Operator.within_apply`). So the bounds of all values on the stack never sum up to more than the
widths of the numbers so far, and the constant for each operator (`Node.withinTotal_run`). If that
sum is below `2 ^ 58`, nothing that a quotient or a power computes from scales leaves 64 bits
(`Node.scales_bounded`).
-/

namespace DecimalCalculator

/-! ## one operator -/

/-- what one operator may add to the bounds of its operands -/
def operatorReach : ℕ := 1100000

theorem Operator.within_apply {scale : ℕ} (hscale : scale ≤ maxScale) {op : Operator} {a b : ℕ}
    {l r v : Decimal} (hl : l.Within a) (hr : r.Within b) (h : op.apply scale l r = .ok v) :
    v.Within (a + b + operatorReach) := by
  have hmax : maxScale = 10000 := rfl
  have hsize : Decimal.maxPowerSize = 1000000 := rfl
  have hreach : operatorReach = 1100000 := rfl
  cases op with
  | add =>
    cases h
    exact (Decimal.within_add hl hr).mono (by omega)
  | sub =>
    cases h
    exact (Decimal.within_sub hl hr).mono (by omega)
  | mul =>
    cases h
    exact (Decimal.within_mul hl hr).mono (by omega)
  | div => exact (Decimal.within_divide hl hr h).mono (by omega)
  | pow => exact (Decimal.within_power h).mono (by omega)

/-! ## the stack -/

/-- decimals with bounds that sum up to `n` -/
inductive WithinTotal : ℕ → List Decimal → Prop
  | nil : WithinTotal 0 []
  | cons {m n : ℕ} {v : Decimal} {stack : List Decimal} (hv : v.Within m)
    (hs : WithinTotal n stack) : WithinTotal (m + n) (v :: stack)

theorem WithinTotal.within {n : ℕ} {stack : List Decimal} (h : WithinTotal n stack) {v : Decimal}
    (hv : v ∈ stack) : v.Within n := by
  induction h with
  | nil => cases hv
  | cons hw _ ih =>
    rcases List.mem_cons.mp hv with rfl | hv
    · exact hw.mono (Nat.le_add_right _ _)
    · exact (ih hv).mono (Nat.le_add_left _ _)

namespace Node

/-- the widths of all numbers, and a constant for each operator -/
def scaleBound (nodes : List Node) : ℕ :=
  ((numbers nodes).map Decimal.width).sum + operatorReach * (operators nodes).length

theorem scaleBound_append (a b : List Node) :
    scaleBound (a ++ b) = scaleBound a + scaleBound b := by
  unfold scaleBound
  rw [numbers_append, operators_append, List.map_append, List.sum_append, List.length_append]
  ring

theorem withinTotal_step {scale : ℕ} (hscale : scale ≤ maxScale) {n : ℕ}
    {stack next : List Decimal} {node : Node} (hs : WithinTotal n stack)
    (h : (step scale stack node).outcome = .ok next) :
    WithinTotal (scaleBound [node] + n) next := by
  cases node with
  | number v =>
    cases h
    exact .cons v.within_width hs
  | operator op =>
    match stack, h, hs with
    | r :: l :: below, h, .cons (m := b) hr (.cons (m := a) (n := k) hl hbelow) =>
      rw [outcome_step_operator] at h
      obtain ⟨v, hv, rfl⟩ := map_eq_ok_iff.mp h
      have hw := Operator.within_apply hscale hl hr (refusing_eq_ok hv)
      have hsum : scaleBound [.operator op] + (b + (a + k)) = a + b + operatorReach + k := by
        show 0 + operatorReach * 1 + (b + (a + k)) = _
        ring
      rw [hsum]
      exact .cons hw hbelow
    | [_], h, _ => cases h
    | [], h, _ => cases h

theorem withinTotal_run {scale : ℕ} (hscale : scale ≤ maxScale) {n : ℕ}
    {stack last : List Decimal} {nodes : List Node} (hs : WithinTotal n stack)
    (h : (run scale stack nodes).outcome = .ok last) :
    WithinTotal (scaleBound nodes + n) last := by
  induction nodes generalizing n stack with
  | nil =>
    cases h
    rwa [show scaleBound [] = 0 from rfl, zero_add]
  | cons node nodes ih =>
    rw [run_cons, Reported.outcome_bind] at h
    obtain ⟨next, hstep, hrest⟩ := bind_eq_ok_iff.mp h
    rw [← List.singleton_append, scaleBound_append, add_comm (scaleBound [node]), add_assoc]
    exact ih (withinTotal_step hscale hs hstep) hrest

/-- whatever is on the stack behind some of the nodes -/
theorem within_of_run {scale : ℕ} (hscale : scale ≤ maxScale) {nodes front back : List Node}
    {stack : List Decimal} (hn : nodes = front ++ back)
    (h : (run scale [] front).outcome = .ok stack) {v : Decimal} (hv : v ∈ stack) :
    v.Within (scaleBound nodes) := by
  refine ((withinTotal_run hscale .nil h).within hv).mono ?_
  rw [hn, scaleBound_append]
  exact Nat.add_le_add_left (Nat.zero_le _) _

/-! ## operations -/

/-- somewhere in an evaluation, `op` is applied to `l` and `r` -/
def Applies (scale : ℤ) (nodes : List Node) (op : Operator) (l r : Decimal) : Prop :=
  ∃ front back below, nodes = front ++ .operator op :: back ∧
    (run scale [] front).outcome = .ok (r :: l :: below)

/-- somewhere in an evaluation, `l` is divided by `r`: as a quotient, or for a negative exponent -/
inductive Divides (scale : ℤ) (nodes : List Node) : Decimal → Decimal → Prop
  | quotient {l r : Decimal} (h : Applies scale nodes .div l r) : Divides scale nodes l r
  | reciprocal {base exponent : Decimal} {e : ℤ} (h : Applies scale nodes .pow base exponent)
    (he : Decimal.Admits base exponent e) (hneg : e < 0) (h0 : base.digits ≠ 0) :
    Divides scale nodes .one (base.natPower e.natAbs)

/-- an integer of 64 bits -/
def IsInt64 (n : ℤ) : Prop := -Decimal.int64Bound ≤ n ∧ n < Decimal.int64Bound

theorem Applies.within {scale : ℕ} (hscale : scale ≤ maxScale) {nodes : List Node} {op : Operator}
    {l r : Decimal} (h : Applies scale nodes op l r) :
    l.Within (scaleBound nodes) ∧ r.Within (scaleBound nodes) := by
  obtain ⟨front, back, below, hn, hrun⟩ := h
  exact ⟨within_of_run hscale hn hrun (by simp), within_of_run hscale hn hrun (by simp)⟩

/-- **The scales of an evaluation.** No value on the stack has more places than the bound of the
list, so below `2 ^ 58` the shift of a quotient and the size of a power are computed in 64 bits. -/
theorem scales_bounded {scale : ℤ} (h0 : 0 ≤ scale) (hmax : scale ≤ maxScale)
    (nodes : List Node) :
    (∀ front back stack, nodes = front ++ back → (run scale [] front).outcome = .ok stack →
      ∀ v ∈ stack, v.scale.natAbs ≤ scaleBound nodes) ∧
    (scaleBound nodes < 2 ^ 58 →
      (∀ l r, Divides scale nodes l r → IsInt64 (scale + r.scale) ∧
        IsInt64 (scale + r.scale - l.scale) ∧ IsInt64 (-(scale + r.scale - l.scale))) ∧
      ∀ base exponent, Applies scale nodes .pow base exponent → base.powerSize < 2 ^ 64) := by
  obtain ⟨scale, rfl⟩ := Int.eq_ofNat_of_zero_le h0
  have hscale : scale ≤ maxScale := Int.ofNat_le.mp hmax
  have hlimit : maxScale = 10000 := rfl
  have hint : Decimal.int64Bound = 2 ^ 63 := rfl
  refine ⟨fun front back stack hn hrun v hv => (within_of_run hscale hn hrun hv).scale_le,
    fun hbound => ⟨fun l r h => ?_, fun base exponent h => ?_⟩⟩
  · have hscales : l.scale.natAbs < 2 ^ 58 ∧ r.scale.natAbs < 2 ^ 58 := by
      cases h with
      | quotient h =>
        obtain ⟨hl, hr⟩ := h.within hscale
        exact ⟨hl.scale_le.trans_lt hbound, hr.scale_le.trans_lt hbound⟩
      | reciprocal _ he _ _ =>
        -- the divisor is no value of the stack, but a power that the size of its base bounds
        have hr := (Decimal.within_natPower_of_admits he).scale_le
        have hsize : Decimal.maxPowerSize = 1000000 := rfl
        exact ⟨by decide, by omega⟩
    unfold IsInt64
    omega
  · have hsize := Decimal.powerSize_le (h.within hscale).1
    omega

/-- the places of `2.5 ^ -3`, which is the quotient `1 / 15.625` -/
theorem scales_bounded_reciprocal :
    (run 20 [] [.number ⟨25, 1⟩, .number ⟨-3, 0⟩, .operator .pow]).outcome = .ok [⟨64, 3⟩] ∧
      (⟨64, 3⟩ : Decimal).scale.natAbs ≤
        scaleBound [.number ⟨25, 1⟩, .number ⟨-3, 0⟩, .operator .pow] ∧
      Divides 20 [.number ⟨25, 1⟩, .number ⟨-3, 0⟩, .operator .pow] .one ⟨15625, 3⟩ ∧
      IsInt64 (20 + 3) ∧ (⟨25, 1⟩ : Decimal).powerSize < 2 ^ 64 := by
  have hrun : (run 20 [] [.number ⟨25, 1⟩, .number ⟨-3, 0⟩, .operator .pow]).outcome =
      .ok [⟨64, 3⟩] := by decide +kernel
  have happlies : Applies 20 [.number ⟨25, 1⟩, .number ⟨-3, 0⟩, .operator .pow] .pow
      ⟨25, 1⟩ ⟨-3, 0⟩ := ⟨[.number ⟨25, 1⟩, .number ⟨-3, 0⟩], [], [], rfl, rfl⟩
  have hadmits : Decimal.Admits ⟨25, 1⟩ ⟨-3, 0⟩ (-3) := ⟨rfl, rfl, by decide +kernel⟩
  have hpower : (⟨25, 1⟩ : Decimal).natPower 3 = ⟨15625, 3⟩ := by decide +kernel
  have hdivides : Divides 20 [.number ⟨25, 1⟩, .number ⟨-3, 0⟩, .operator .pow] .one ⟨15625, 3⟩ :=
    hpower ▸ Divides.reciprocal happlies hadmits (by decide) (by decide)
  have hnonneg : (0 : ℤ) ≤ 20 := by decide
  have hmax : (20 : ℤ) ≤ maxScale := by decide
  obtain ⟨hstack, hbelow⟩ := scales_bounded hnonneg hmax
    [.number ⟨25, 1⟩, .number ⟨-3, 0⟩, .operator .pow]
  obtain ⟨hshift, hsize⟩ := hbelow (by decide +kernel)
  exact ⟨hrun, hstack _ [] _ (List.append_nil _).symm hrun _ List.mem_cons_self, hdivides,
    (hshift _ _ hdivides).1, hsize _ _ happlies⟩

end Node

end DecimalCalculator
