import Mathlib
import DecimalCalculator.Proofs.Decimal.Rational
import DecimalCalculator.Proofs.Evaluation

/-!
# Exact values

The reference semantics works on rational numbers: sums, differences, products and powers with an
exponent of zero or more are exact, and a quotient or a power with a negative exponent is rounded
once (`Operator.exact`, `Expr.exact`). It knows nothing of digits and scales, so by
`Expr.evaluate_exact` the value of an expression is the same number for all ways to write its
leaves.
-/

namespace DecimalCalculator

/-! ## reference semantics -/

/-- the number `x op y`, with quotients to `scale` places -/
def Operator.exact (scale : ℤ) (op : Operator) (x y : ℚ) : Option ℚ :=
  match op with
  | .add => some (x + y)
  | .sub => some (x - y)
  | .mul => some (x * y)
  | .div => if y = 0 then none else some (roundTo scale (x / y))
  | .pow =>
    if y.den ≠ 1 then none
    else if 0 ≤ y.num then some (x ^ y.num.natAbs)
    else if x = 0 then none
    else some (roundTo scale (1 / x ^ y.num.natAbs))

def Expr.exact (scale : ℤ) : Expr ℚ → Option ℚ
  | .leaf x => some x
  | .binary op l r => do
    let x ← l.exact scale
    let y ← r.exact scale
    op.exact scale x y

/-- the operators that apply to all operands -/
def Operator.isRing : Operator → Bool
  | .add | .sub | .mul => true
  | .div | .pow => false

/-- a tree of sums, differences and products -/
def Expr.isRing {α : Type} : Expr α → Bool
  | .leaf _ => true
  | .binary op l r => op.isRing && l.isRing && r.isRing

/-! ## one operator -/

theorem Operator.exact_of_apply {scale : ℤ} {op : Operator} {l r v : Decimal}
    (h : op.apply scale l r = .ok v) : op.exact scale l.toRat r.toRat = some v.toRat := by
  cases op with
  | add =>
    cases h
    exact congrArg some (Decimal.toRat_add l r).symm
  | sub =>
    cases h
    exact congrArg some (Decimal.toRat_sub l r).symm
  | mul =>
    cases h
    exact congrArg some (Decimal.toRat_mul l r).symm
  | div =>
    obtain ⟨hr, hv⟩ := Decimal.toRat_divide h
    show (if r.toRat = 0 then none else some (roundTo scale (l.toRat / r.toRat))) = _
    rw [if_neg hr, hv]
  | pow =>
    obtain ⟨e, he, hnonneg, hneg⟩ := Decimal.toRat_power h
    show (if r.toRat.den ≠ 1 then none
      else if 0 ≤ r.toRat.num then some (l.toRat ^ r.toRat.num.natAbs)
      else if l.toRat = 0 then none
      else some (roundTo scale (1 / l.toRat ^ r.toRat.num.natAbs))) = _
    rw [he, Rat.den_intCast, Rat.num_intCast, if_neg (not_not.mpr rfl)]
    split_ifs with h0 hl
    · rw [hnonneg h0]
    · exact absurd hl (hneg (not_le.mp h0)).1
    · rw [(hneg (not_le.mp h0)).2]

theorem Operator.exists_apply_of_isRing {op : Operator} (h : op.isRing = true) (scale : ℤ)
    (l r : Decimal) : ∃ v, op.apply scale l r = .ok v := by
  cases op with
  | add => exact ⟨l + r, rfl⟩
  | sub => exact ⟨l - r, rfl⟩
  | mul => exact ⟨l * r, rfl⟩
  | div => cases h
  | pow => cases h

/-! ## trees -/

namespace Expr

theorem exact_of_value {scale : ℤ} {t : Expr Decimal} {v : Decimal} (h : t.value scale = .ok v) :
    (t.map Decimal.toRat).exact scale = some v.toRat := by
  induction t generalizing v with
  | leaf a =>
    cases h
    rfl
  | binary op l r ihl ihr =>
    obtain ⟨a, b, hl, hr, hop⟩ := value_binary_eq_ok h
    show ((l.map Decimal.toRat).exact scale >>= fun x =>
      (r.map Decimal.toRat).exact scale >>= fun y => op.exact scale x y) = _
    rw [ihl hl, ihr hr]
    exact Operator.exact_of_apply hop

theorem isRing_binary {α : Type} {op : Operator} {l r : Expr α}
    (h : (binary op l r).isRing = true) :
    op.isRing = true ∧ l.isRing = true ∧ r.isRing = true := by
  obtain ⟨hol, hr⟩ := Bool.and_eq_true_iff.mp h
  obtain ⟨ho, hl⟩ := Bool.and_eq_true_iff.mp hol
  exact ⟨ho, hl, hr⟩

theorem exists_value_of_isRing {t : Expr Decimal} (h : t.isRing = true) (scale : ℤ) :
    ∃ v, t.value scale = .ok v := by
  induction t with
  | leaf a => exact ⟨a, rfl⟩
  | binary op l r ihl ihr =>
    obtain ⟨ho, hl, hr⟩ := isRing_binary h
    obtain ⟨a, ha⟩ := ihl hl
    obtain ⟨b, hb⟩ := ihr hr
    obtain ⟨v, hv⟩ := Operator.exists_apply_of_isRing ho scale a b
    exact ⟨v, by rw [value_binary_of_ok ha hb, hv]⟩

/-- The value of a postfix form is the number that the reference semantics gives for its tree,
whatever the digits and scales of its leaves are, and sums, differences and products always have
one. -/
theorem evaluate_exact (scale : ℤ) (t : Expr Decimal) :
    (∀ v, (Node.evaluate scale t.postorder).outcome = .ok v →
      (t.map Decimal.toRat).exact scale = some v.toRat) ∧
    (∀ (t' : Expr Decimal) (v v' : Decimal), t'.map Decimal.toRat = t.map Decimal.toRat →
      (Node.evaluate scale t.postorder).outcome = .ok v →
      (Node.evaluate scale t'.postorder).outcome = .ok v' → v'.toRat = v.toRat) ∧
    (t.isRing = true → ∃ v, (Node.evaluate scale t.postorder).outcome = .ok v) := by
  have hexact : ∀ (s : Expr Decimal) (v : Decimal),
      (Node.evaluate scale s.postorder).outcome = .ok v →
      (s.map Decimal.toRat).exact scale = some v.toRat := by
    intro s v h
    rw [Node.outcome_evaluate_postorder] at h
    exact exact_of_value (refusing_eq_ok h)
  refine ⟨hexact t, ?_, ?_⟩
  · intro t' v v' hmap h h'
    have he := hexact t v h
    have he' := hexact t' v' h'
    rw [hmap, he] at he'
    exact (Option.some.inj he').symm
  · intro h
    obtain ⟨v, hv⟩ := exists_value_of_isRing h scale
    exact ⟨v, by rw [Node.outcome_evaluate_postorder, hv, refusing_ok]⟩

end Expr

end DecimalCalculator
