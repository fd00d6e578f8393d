import DecimalCalculator.Postfix.Evaluation
import DecimalCalculator.Proofs.Conversion

/-!
# What the stack of values does

The postfix form of a tree runs on any stack: it puts the value of the tree onto the stack, or fails
as the tree fails (`outcome_run_postorder`). And whatever list of nodes is run, each number makes
the stack one higher and each operator one lower (`length_of_run`), so a list with a value has one
number more than it has operators. A property that numbers have and operators keep is one of the
value (`of_evaluate`).
-/

namespace DecimalCalculator

/-! ## the postfix form of a tree -/

namespace Node

theorem outcome_step_operator (scale : Int) (op : Operator) (l r : Decimal)
    (stack : List Decimal) :
    (step scale (r :: l :: stack) (.operator op)).outcome =
      (refusing (op.apply scale l r)).map (· :: stack) := by
  cases h : op.apply scale l r with
  | error e =>
    simp only [step, h]
    rfl
  | ok v =>
    simp only [step, h]
    rfl

theorem outcome_run_singleton (scale : Int) (stack : List Decimal) (n : Node) :
    (run scale stack [n]).outcome = (step scale stack n).outcome := by
  rw [run_cons, Reported.outcome_bind]
  cases (step scale stack n).outcome <;> rfl

/-- the postfix form puts the value of the tree onto any stack, or fails as the tree does -/
theorem outcome_run_postorder (scale : Int) (t : Expr Decimal) (stack : List Decimal) :
    (run scale stack t.postorder).outcome =
      (refusing (t.value scale)).map (· :: stack) := by
  induction t generalizing stack with
  | leaf v => rfl
  | binary op l r ihl ihr =>
    rw [Expr.postorder_binary, outcome_run_append, outcome_run_append, ihl]
    cases hl : l.value scale with
    | error e =>
      rw [Expr.value_binary_of_error_left hl]
      rfl
    | ok a =>
      show ((run scale (a :: stack) r.postorder).outcome >>= _) = _
      rw [ihr]
      cases hr : r.value scale with
      | error e =>
        rw [Expr.value_binary_of_error_right hl hr]
        rfl
      | ok b =>
        show (run scale (b :: a :: stack) [.operator op]).outcome = _
        rw [outcome_run_singleton, outcome_step_operator, Expr.value_binary_of_ok hl hr]

theorem outcome_evaluate_postorder (scale : Int) (t : Expr Decimal) :
    (evaluate scale t.postorder).outcome = refusing (t.value scale) := by
  unfold evaluate
  rw [Reported.outcome_bind, outcome_run_postorder]
  cases t.value scale <;> rfl

theorem evaluate_postorder_eq_ok_iff {scale : Int} {t : Expr Decimal} {v : Decimal} :
    (evaluate scale t.postorder).outcome = .ok v ↔ t.value scale = .ok v := by
  rw [outcome_evaluate_postorder]
  exact ⟨refusing_eq_ok, fun h => by rw [h, refusing_ok]⟩

/-! ## heights -/

/-- each number makes the stack one higher, each operator one lower -/
theorem length_of_step {scale : Int} {stack next : List Decimal} {n : Node}
    (h : (step scale stack n).outcome = .ok next) :
    next.length + (operators [n]).length = stack.length + (numbers [n]).length := by
  cases n with
  | number v =>
    cases h
    rfl
  | operator op =>
    match stack, h with
    | r :: l :: below, h =>
      rw [outcome_step_operator] at h
      obtain ⟨v, _, rfl⟩ := map_eq_ok_iff.mp h
      rfl
    | [_], h => cases h
    | [], h => cases h

theorem length_of_run {scale : Int} {stack last : List Decimal} {nodes : List Node}
    (h : (run scale stack nodes).outcome = .ok last) :
    last.length + (operators nodes).length = stack.length + (numbers nodes).length := by
  induction nodes generalizing stack with
  | nil =>
    cases h
    rfl
  | cons n nodes ih =>
    rw [run_cons, Reported.outcome_bind] at h
    obtain ⟨next, hs, hrest⟩ := bind_eq_ok_iff.mp h
    have h1 := length_of_step hs
    have h2 := ih hrest
    rw [← List.singleton_append, operators_append, numbers_append, List.length_append,
      List.length_append]
    omega

theorem evaluate_eq_ok_iff {scale : Int} {nodes : List Node} {v : Decimal} :
    (evaluate scale nodes).outcome = .ok v ↔ (run scale [] nodes).outcome = .ok [v] := by
  unfold evaluate
  rw [Reported.outcome_bind]
  constructor
  · intro h
    obtain ⟨stack, hr, hsingle⟩ := bind_eq_ok_iff.mp h
    rw [hr]
    match stack, hsingle with
    | [w], hsingle =>
      cases hsingle
      rfl
    | [], hsingle => cases hsingle
    | _ :: _ :: _, hsingle => cases hsingle
  · intro h
    rw [h]
    rfl

/-- a list with a value has one number more than it has operators -/
theorem length_numbers_of_evaluate {scale : Int} {nodes : List Node} {v : Decimal}
    (h : (evaluate scale nodes).outcome = .ok v) :
    (numbers nodes).length = (operators nodes).length + 1 := by
  have hl := length_of_run (evaluate_eq_ok_iff.mp h)
  simp only [List.length_singleton, List.length_nil] at hl
  omega

/-! ## what all values have in common -/

section
variable {P : Decimal → Prop} {scale : Int}

theorem forall_of_step {n : Node}
    (hop : ∀ op ∈ operators [n], ∀ l r v, P l → P r → op.apply scale l r = .ok v → P v)
    (hnum : ∀ v ∈ numbers [n], P v) {stack next : List Decimal} (hstack : ∀ v ∈ stack, P v)
    (h : (step scale stack n).outcome = .ok next) : ∀ v ∈ next, P v := by
  cases n with
  | number w =>
    cases h
    intro v hv
    rcases List.mem_cons.mp hv with rfl | hv
    · exact hnum v List.mem_cons_self
    · exact hstack v hv
  | operator op =>
    match stack, h, hstack with
    | r :: l :: below, h, hstack =>
      rw [outcome_step_operator] at h
      obtain ⟨w, hw, rfl⟩ := map_eq_ok_iff.mp h
      have hl : P l := hstack l (List.mem_cons_of_mem r List.mem_cons_self)
      have hr : P r := hstack r List.mem_cons_self
      intro v hv
      rcases List.mem_cons.mp hv with rfl | hv
      · exact hop op List.mem_cons_self l r v hl hr (refusing_eq_ok hw)
      · exact hstack v (List.mem_cons_of_mem r (List.mem_cons_of_mem l hv))
    | [_], h, _ => cases h
    | [], h, _ => cases h

/-- what the numbers of a list have, and its operators keep, all values on the stack have -/
theorem forall_of_run {nodes : List Node}
    (hop : ∀ op ∈ operators nodes, ∀ l r v, P l → P r → op.apply scale l r = .ok v → P v)
    (hnum : ∀ v ∈ numbers nodes, P v) {stack last : List Decimal} (hstack : ∀ v ∈ stack, P v)
    (h : (run scale stack nodes).outcome = .ok last) : ∀ v ∈ last, P v := by
  induction nodes generalizing stack with
  | nil =>
    cases h
    exact hstack
  | cons n nodes ih =>
    rw [← List.singleton_append, operators_append] at hop
    rw [← List.singleton_append, numbers_append] at hnum
    rw [run_cons, Reported.outcome_bind] at h
    obtain ⟨next, hs, hrest⟩ := bind_eq_ok_iff.mp h
    have hnext := forall_of_step (fun op ho => hop op (List.mem_append_left _ ho))
      (fun v hv => hnum v (List.mem_append_left _ hv)) hstack hs
    exact ih (fun op ho => hop op (List.mem_append_right _ ho))
      (fun v hv => hnum v (List.mem_append_right _ hv)) hnext hrest

theorem of_evaluate {nodes : List Node}
    (hop : ∀ op ∈ operators nodes, ∀ l r v, P l → P r → op.apply scale l r = .ok v → P v)
    (hnum : ∀ v ∈ numbers nodes, P v) {v : Decimal}
    (h : (evaluate scale nodes).outcome = .ok v) : P v :=
  forall_of_run hop hnum (fun _ hw => by cases hw) (evaluate_eq_ok_iff.mp h) v List.mem_cons_self

end

end Node

end DecimalCalculator
