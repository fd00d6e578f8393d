import Mathlib
import DecimalCalculator.Proofs.Listing
import DecimalCalculator.Proofs.Token.Origin

/-!
# Entering a displayed result

The text of a result is a literal, so it can be entered again, and it has the same number. It is
displayed as the same text, unless the result is a zero of negative scale: that is displayed with
one zero for each place (`000`), and entering these zeros gives `0`. Such a result needs a product or a
power, for no other operator makes a scale negative (`Calculator.result_redisplayed`).
-/

namespace DecimalCalculator

/-! ## scales -/

namespace Decimal

theorem add_scale_nonneg {l r : Decimal} (hl : 0 ≤ l.scale) (hr : 0 ≤ r.scale) :
    0 ≤ (l + r).scale := (le_min hl hr).trans (add_scale_between l r).1

theorem divide_scale_nonneg {l r v : Decimal} {scale : ℤ} (h : divide l r scale = .ok v) :
    0 ≤ v.scale := by
  obtain ⟨-, -, rfl⟩ := divide_eq_ok_iff.mp h
  exact reduced_scale_nonneg _

end Decimal

/-- only products and powers make a scale negative -/
theorem Operator.scale_nonneg_of_apply {scale : ℤ} {op : Operator} {l r v : Decimal}
    (hmul : op ≠ .mul) (hpow : op ≠ .pow) (hl : 0 ≤ l.scale) (hr : 0 ≤ r.scale)
    (h : op.apply scale l r = .ok v) : 0 ≤ v.scale := by
  cases op with
  | add =>
    cases h
    exact Decimal.add_scale_nonneg hl hr
  | sub =>
    cases h
    rw [Decimal.sub_scale]
    exact le_max_of_le_left hl
  | mul => exact absurd rfl hmul
  | div => exact Decimal.divide_scale_nonneg h
  | pow => exact absurd rfl hpow

namespace Calculator

/-! ## results -/

/-- without a product or a power no result has a negative scale -/
theorem scale_nonneg_of_calculate {c : Calculator} (hc : c.bindings.Listable) {text : List Char}
    {v : Decimal} (h : (c.calculate text).outcome = .ok v) (hmul : '*' ∉ text) (hpow : '^' ∉ text) :
    0 ≤ v.scale := by
  obtain ⟨ts, nodes, hts, hnodes, hv⟩ := calculate_eq_ok_iff.mp h
  refine Node.of_evaluate (P := fun d => 0 ≤ d.scale) ?_ ?_ hv
  · intro op hop l r w hl hr hw
    have hmem : op ∈ Token.operators ts := (Node.operators_of_ofTokens hnodes).mem_iff.mp hop
    obtain ⟨t, ht, hto⟩ := List.mem_filterMap.mp hmem
    have hsymbol : op.symbol ∈ text ∨ isSign op.symbol = true := by
      cases t with
      | operator o =>
        cases hto
        exact Token.symbol_mem_of_ofText hts ht
      | number _ => cases hto
      | identifier _ => cases hto
      | opening => cases hto
      | closing => cases hto
    refine Operator.scale_nonneg_of_apply ?_ ?_ hl hr hw
    · rintro rfl
      exact hsymbol.elim hmul nofun
    · rintro rfl
      exact hsymbol.elim hpow nofun
  · intro d hd
    have hsome : some d ∈ (Token.operands ts).map (Operand.value? c.bindings.get?) := by
      rw [← Node.numbers_of_ofTokens hnodes]
      exact List.mem_map_of_mem hd
    obtain ⟨a, ha, had⟩ := List.mem_map.mp hsome
    obtain ⟨t, ht, hta⟩ := List.mem_filterMap.mp ha
    cases t with
    | number w =>
      cases hta
      cases had
      exact Token.scale_nonneg_of_ofText hts ht
    | identifier name =>
      cases hta
      exact (hc name d had).2
    | operator _ => cases hta
    | opening => cases hta
    | closing => cases hta

/-- a literal has the value that it writes -/
theorem calculate_of_ofLiteral? (c : Calculator) {text : List Char} {v : Decimal}
    (h : Decimal.ofLiteral? text = some v) : (c.calculate text).outcome = .ok v :=
  calculate_of_operand (a := .number v) (Token.ofText_of_ofLiteral? h) rfl

/-- A displayed result is a literal of the number that it shows. Exactly if it is no zero of negative
scale, it has no superfluous zeros in front and is displayed as the same text when it is entered. A
result of negative scale needs a product or a power. -/
theorem result_redisplayed (scale : ℤ) (lines : List (List Char)) {text : List Char} {v : Decimal}
    (h : (((fresh scale).after lines).calculate text).outcome = .ok v) :
    Decimal.isLiteral v.plain.toList = true ∧
    (Decimal.NoLeadingZero v.plain.toList ↔ ¬(v.digits = 0 ∧ v.scale < 0)) ∧
    (∃ w, (((fresh scale).after lines).calculate v.plain.toList).outcome = .ok w ∧
      w.toRat = v.toRat ∧ (w.plain = v.plain ↔ ¬(v.digits = 0 ∧ v.scale < 0))) ∧
    ('*' ∉ text → '^' ∉ text → 0 ≤ v.scale) := by
  have hliteral := Decimal.ofLiteral?_plain v
  refine ⟨Decimal.isLiteral_of_ofLiteral? hliteral, Decimal.noLeadingZero_plain_iff v, ?_, ?_⟩
  · exact ⟨v.spelledOut, calculate_of_ofLiteral? _ hliteral, Decimal.toRat_spelledOut v,
      Decimal.plain_spelledOut_iff v⟩
  · exact scale_nonneg_of_calculate (listable_after scale lines) h

/-- the zeros of a product that cancels are lost when they are entered -/
theorem result_redisplayed_cancelled :
    ((fresh 20).calculate "100*1-100*1".toList).outcome = .ok ⟨0, -2⟩ ∧
      (⟨0, -2⟩ : Decimal).plain = "000" ∧
      ∃ w, ((fresh 20).calculate "000".toList).outcome = .ok w ∧ w.plain ≠ "000" := by
  have hv : (((fresh 20).after []).calculate "100*1-100*1".toList).outcome = .ok ⟨0, -2⟩ := by
    decide +kernel
  have hplain : (⟨0, -2⟩ : Decimal).plain = "000" := by decide +kernel
  obtain ⟨-, -, ⟨w, hw, -, hagain⟩, -⟩ := result_redisplayed 20 [] hv
  rw [hplain] at hw hagain
  exact ⟨hv, hplain, w, hw, fun he => hagain.mp he ⟨rfl, by decide⟩⟩

end Calculator

end DecimalCalculator
