import DecimalCalculator.Calculator
import DecimalCalculator.Proofs.Evaluation

/-!
# Infix expressions and their values

An expression that the grammar derives is converted to the postfix form of its tree, and the value
of that is the value of the tree: `Derives.converted_and_evaluated`.

The other direction fails. The conversion lets operands through wherever they stand, so a list with
neighbours may still have a postfix form that can be evaluated: `2(-3)` gives `2 3 -`. This is the
only way: among the expressions that have a value, exactly those without neighbours are derived
(`derives_iff_separated_of_calculate`).
-/

namespace DecimalCalculator

/-! ## derived expressions -/

/-- a tree of which all names are bound has values at all its leaves -/
theorem Derives.exists_resolve {k : Nat} {ts : List Token} {e : Expr Operand}
    (h : Derives k ts e) {value? : String → Option Decimal}
    (bound : ∀ name, Token.identifier name ∈ ts → (value? name).isSome = true) :
    ∃ t, e.resolve value? = some t := by
  induction h using Derives.rec_levels with
  | operand a =>
    cases a with
    | number v => exact ⟨.leaf v, rfl⟩
    | identifier name =>
      obtain ⟨v, hv⟩ := Option.isSome_iff_exists.mp (bound name List.mem_cons_self)
      exact ⟨.leaf v, congrArg (Option.map Expr.leaf) hv⟩
  | group _ ih =>
    exact ih fun name hn => bound name (List.mem_cons_of_mem _ (List.mem_append_left _ hn))
  | lift _ _ _ ih => exact ih bound
  | binary _ _ _ ihl ihr =>
    obtain ⟨l', hl⟩ := ihl fun name hn => bound name (List.mem_append_left _ hn)
    obtain ⟨r', hr⟩ := ihr fun name hn =>
      bound name (List.mem_append_right _ (List.mem_cons_of_mem _ hn))
    exact ⟨_, by rw [Expr.resolve, hl, hr]; rfl⟩

/-- what fails in the evaluation of a postfix form is an operator of its tree -/
theorem Node.evaluate_postorder_error_iff (scale : Int) (t : Expr Decimal) :
    (∃ cause, (evaluate scale t.postorder).outcome = .error (.invalidExpression cause)) ↔
      t.FailsAt scale := by
  rw [outcome_evaluate_postorder, ← Expr.exists_error_iff_failsAt]
  constructor
  · rintro ⟨cause, h⟩
    cases hv : t.value scale with
    | error e => exact ⟨e, rfl⟩
    | ok v =>
      rw [hv] at h
      cases h
  · rintro ⟨e, he⟩
    exact ⟨.arithmetic e, by rw [he, refusing_error]⟩

/-- An expression that the grammar derives, with all its names bound, is converted to the postfix
form of its tree. The value of that is the value of the tree from the leaves upwards, and it is
refused exactly if some operator of the tree cannot be applied. -/
theorem Derives.converted_and_evaluated {ts : List Token} {e : Expr Operand}
    (h : Derives 1 ts e) {value? : String → Option Decimal}
    (bound : ∀ name, Token.identifier name ∈ ts → (value? name).isSome = true) :
    ∃ t, e.resolve value? = some t ∧ (nodeStage value? ts).outcome = .ok t.postorder ∧
      ∀ scale, (Node.evaluate scale t.postorder).outcome = refusing (t.value scale) ∧
        ((∃ cause, (Node.evaluate scale t.postorder).outcome =
          .error (.invalidExpression cause)) ↔ t.FailsAt scale) := by
  obtain ⟨t, ht⟩ := h.exists_resolve bound
  refine ⟨t, ht, ?_, fun scale => ⟨?_, ?_⟩⟩
  · rw [outcome_nodeStage]
    exact Node.ofTokens_of_derives h ht
  · exact Node.outcome_evaluate_postorder scale t
  · exact Node.evaluate_postorder_error_iff scale t

/-- `8 - a - (3) ^ 2 ^ 2`, grouped to the left -/
theorem derives_chain : Derives 1
    [.number ⟨8, 0⟩, .operator .sub, .identifier "a", .operator .sub, .opening, .number ⟨3, 0⟩,
      .closing, .operator .pow, .number ⟨2, 0⟩, .operator .pow, .number ⟨2, 0⟩]
    (.binary .sub (.binary .sub (.leaf (.number ⟨8, 0⟩)) (.leaf (.identifier "a")))
      (.binary .pow (.binary .pow (.leaf (.number ⟨3, 0⟩)) (.leaf (.number ⟨2, 0⟩)))
        (.leaf (.number ⟨2, 0⟩)))) := by
  have two : Derives 4 [.number ⟨2, 0⟩] (.leaf (.number ⟨2, 0⟩)) := .operand (.number ⟨2, 0⟩)
  have three : Derives 4 [.opening, .number ⟨3, 0⟩, .closing] (.leaf (.number ⟨3, 0⟩)) :=
    .group ((Derives.operand (.number ⟨3, 0⟩)).of_primary (by decide) (by decide))
  have difference : Derives 1 _ _ :=
    .sum (.inr rfl) ((Derives.operand (.number ⟨8, 0⟩)).of_primary (by decide) (by decide))
      ((Derives.operand (.identifier "a")).of_primary (by decide) (by decide))
  have power : Derives 3 _ _ := .power (.power (.ofPrimary three) two) two
  exact .sum (.inr rfl) difference (.ofPower power)

theorem converted_and_evaluated_chain :
    (nodeStage (Bindings.empty.set "a" ⟨15, 1⟩).get?
      [.number ⟨8, 0⟩, .operator .sub, .identifier "a", .operator .sub, .opening, .number ⟨3, 0⟩,
        .closing, .operator .pow, .number ⟨2, 0⟩, .operator .pow, .number ⟨2, 0⟩]).outcome =
      .ok [.number ⟨8, 0⟩, .number ⟨15, 1⟩, .operator .sub, .number ⟨3, 0⟩, .number ⟨2, 0⟩,
        .operator .pow, .number ⟨2, 0⟩, .operator .pow, .operator .sub] ∧
    (Node.evaluate 20 [.number ⟨8, 0⟩, .number ⟨15, 1⟩, .operator .sub, .number ⟨3, 0⟩,
      .number ⟨2, 0⟩, .operator .pow, .number ⟨2, 0⟩, .operator .pow, .operator .sub]).outcome =
      .ok ⟨-745, 1⟩ := by
  have bound : ∀ name, Token.identifier name ∈
      [.number ⟨8, 0⟩, .operator .sub, .identifier "a", .operator .sub, .opening, .number ⟨3, 0⟩,
        .closing, .operator .pow, .number ⟨2, 0⟩, .operator .pow, .number ⟨2, 0⟩] →
      ((Bindings.empty.set "a" ⟨15, 1⟩).get? name).isSome = true := by
    intro name hn
    have ha : name = "a" := by simpa using hn
    rw [ha, Bindings.get?_set, if_pos rfl]
    rfl
  obtain ⟨t, ht, hc, he⟩ := derives_chain.converted_and_evaluated bound
  cases ht
  refine ⟨hc, ?_⟩
  have hv := (he 20).1
  exact hv.trans (by decide +kernel)

/-! ## expressions with a value -/

theorem Calculator.outcome_calculate (c : Calculator) (text : List Char) :
    (c.calculate text).outcome = Token.ofText text >>= fun ts =>
      Node.ofTokens c.bindings.get? ts >>= fun nodes =>
        (Node.evaluate c.scale nodes).outcome := by
  unfold calculate nodesOfText
  rw [Reported.outcome_bind, Reported.outcome_bind, outcome_tokenStage]
  cases Token.ofText text with
  | error e => rfl
  | ok ts =>
    show ((nodeStage c.bindings.get? ts).outcome >>= _) = _
    rw [outcome_nodeStage]
    rfl

/-- an expression with a value passed all three stages -/
theorem Calculator.calculate_eq_ok_iff {c : Calculator} {text : List Char} {v : Decimal} :
    (c.calculate text).outcome = .ok v ↔
      ∃ ts nodes, Token.ofText text = .ok ts ∧ Node.ofTokens c.bindings.get? ts = .ok nodes ∧
        (Node.evaluate c.scale nodes).outcome = .ok v := by
  rw [outcome_calculate]
  constructor
  · intro h
    obtain ⟨ts, hts, h⟩ := bind_eq_ok_iff.mp h
    obtain ⟨nodes, hn, hv⟩ := bind_eq_ok_iff.mp h
    exact ⟨ts, nodes, hts, hn, hv⟩
  · rintro ⟨ts, nodes, hts, hn, hv⟩
    exact bind_eq_ok_iff.mpr ⟨ts, hts, bind_eq_ok_iff.mpr ⟨nodes, hn, hv⟩⟩

/-- an expression that is a single operand has the value of that operand -/
theorem Calculator.calculate_of_operand {c : Calculator} {text : List Char} {a : Operand}
    {v : Decimal} (ht : Token.ofText text = .ok [a.token])
    (hv : a.value? c.bindings.get? = some v) : (c.calculate text).outcome = .ok v := by
  have hderives : Derives 1 [a.token] (.leaf a) :=
    (Derives.operand a).of_primary (by decide) (by decide)
  have hleaf : (Expr.leaf a).resolve c.bindings.get? = some (.leaf v) :=
    Option.map_eq_some_iff.mpr ⟨v, hv, rfl⟩
  exact calculate_eq_ok_iff.mpr
    ⟨_, _, ht, Node.ofTokens_of_derives hderives hleaf, rfl⟩

/-- tokens with a value and without neighbours are derived -/
theorem exists_derives_of_separated {value? : String → Option Decimal} {ts : List Token}
    {nodes : List Node} {scale : Int} {v : Decimal} (hn : Node.ofTokens value? ts = .ok nodes)
    (hv : (Node.evaluate scale nodes).outcome = .ok v) (hs : Separated ts) :
    ∃ e, Derives 1 ts e := by
  have hc := Node.length_numbers_of_evaluate hv
  rw [Node.length_numbers_of_ofTokens hn, Node.length_operators_of_ofTokens hn] at hc
  exact exists_derives_of_alternates
    (alternates_of_balanced (Node.depth?_of_ofTokens hn) ⟨hs, fun h => by cases h⟩ hc)

/-- An expression that has a value is derived by the grammar exactly if no two of its operands are
neighbours. -/
theorem derives_iff_separated_of_calculate {c : Calculator} {text : List Char} {v : Decimal}
    (h : (c.calculate text).outcome = .ok v) :
    ∃ ts, Token.ofText text = .ok ts ∧ ((∃ e, Derives 1 ts e) ↔ Separated ts) := by
  obtain ⟨ts, nodes, hts, hn, hv⟩ := Calculator.calculate_eq_ok_iff.mp h
  refine ⟨ts, hts, ?_, exists_derives_of_separated hn hv⟩
  rintro ⟨e, he⟩
  exact separated_of_derives he

/-- `2(-3)` has the value of `2 - 3` -/
theorem derives_iff_separated_of_calculate_neighbours :
    ((Calculator.fresh 20).calculate "2(-3)".toList).outcome = .ok ⟨-1, 0⟩ ∧
      ∃ ts, Token.ofText "2(-3)".toList = .ok ts ∧ ¬ ∃ e, Derives 1 ts e := by
  have hv : ((Calculator.fresh 20).calculate "2(-3)".toList).outcome = .ok ⟨-1, 0⟩ := by
    decide +kernel
  have ht : Token.ofText "2(-3)".toList = .ok [.number ⟨2, 0⟩, .opening, .operator .sub,
      .number ⟨3, 0⟩, .closing] := by decide +kernel
  obtain ⟨ts, hts, hiff⟩ := derives_iff_separated_of_calculate hv
  refine ⟨hv, ts, hts, fun he => ?_⟩
  rw [ht] at hts
  cases hts
  exact absurd (hiff.mp he) (by decide)

end DecimalCalculator
