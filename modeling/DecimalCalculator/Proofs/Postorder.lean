import DecimalCalculator.Proofs.Evaluation

/-!
# Which lists of nodes have a value

A stack of values stands for trees that were read one behind the other: `Postorders scale nodes
stack` says that `nodes` are the postfix forms of such trees, and `stack` their values, the last
one on top. By `run_eq_ok_iff` this is all that a run can do, so a list with a value is one postfix
form. It is that of one tree only, because a tree can be read off from the end of its postfix form
(`Expr.append_postorder_inj`).

All other lists are refused, and `Refuses` says for which cause (`refuses_of_evaluate`,
`evaluate_of_refuses`).
-/

namespace DecimalCalculator

/-! ## trees from their postfix forms -/

/-- the end of a list is the postfix form of one tree at most -/
theorem Expr.append_postorder_inj {t u : Expr Decimal} {a b : List Node}
    (h : a ++ t.postorder = b ++ u.postorder) : a = b ∧ t = u := by
  induction t generalizing u a b with
  | leaf v =>
    cases u with
    | leaf w =>
      obtain ⟨hab, hlast⟩ := List.append_inj' h rfl
      cases hlast
      exact ⟨hab, rfl⟩
    | binary op l r =>
      rw [postorder_binary, ← List.append_assoc] at h
      obtain ⟨-, hlast⟩ := List.append_inj' h rfl
      cases hlast
  | binary op l r ihl ihr =>
    rw [postorder_binary, ← List.append_assoc, ← List.append_assoc] at h
    cases u with
    | leaf w =>
      obtain ⟨-, hlast⟩ := List.append_inj' h rfl
      cases hlast
    | binary op' l' r' =>
      rw [postorder_binary, ← List.append_assoc, ← List.append_assoc] at h
      obtain ⟨hfront, hlast⟩ := List.append_inj' h rfl
      cases hlast
      -- the right operand ends where the operator stands, and the left one where it begins
      obtain ⟨hleft, rfl⟩ := ihr hfront
      obtain ⟨hab, rfl⟩ := ihl hleft
      exact ⟨hab, rfl⟩

theorem Expr.postorder_inj {t u : Expr Decimal} (h : t.postorder = u.postorder) : t = u :=
  (append_postorder_inj (a := []) (b := []) h).2

namespace Node

/-! ## runs -/

/-- postfix forms one behind the other, and the values of their trees, the last one first -/
inductive Postorders (scale : Int) : List Node → List Decimal → Prop
  | nil : Postorders scale [] []
  | snoc {nodes : List Node} {stack : List Decimal} {t : Expr Decimal} {v : Decimal}
    (hs : Postorders scale nodes stack) (ht : t.value scale = .ok v) :
    Postorders scale (nodes ++ t.postorder) (v :: stack)

variable {scale : Int} {nodes : List Node} {stack next : List Decimal}

/-- an operator makes one tree of the last two -/
theorem Postorders.step {n : Node} (hs : Postorders scale nodes stack)
    (h : (step scale stack n).outcome = .ok next) : Postorders scale (nodes ++ [n]) next := by
  cases n with
  | number v =>
    cases h
    exact .snoc (t := .leaf v) hs rfl
  | operator op =>
    match stack, hs, h with
    | b :: a :: below, .snoc (t := r) (.snoc (t := l) hbelow hl) hr, h =>
      rw [outcome_step_operator] at h
      obtain ⟨v, hv, rfl⟩ := map_eq_ok_iff.mp h
      have hvalue : (Expr.binary op l r).value scale = .ok v :=
        (Expr.value_binary_of_ok hl hr op).trans (refusing_eq_ok hv)
      have hjoined := Postorders.snoc hbelow hvalue
      rwa [Expr.postorder_binary, ← List.append_assoc, ← List.append_assoc] at hjoined
    | [_], _, h => cases h
    | [], _, h => cases h

theorem Postorders.run {rest : List Node} (hs : Postorders scale nodes stack)
    (h : (run scale stack rest).outcome = .ok next) : Postorders scale (nodes ++ rest) next := by
  induction rest generalizing nodes stack with
  | nil =>
    cases h
    rwa [List.append_nil]
  | cons n rest ih =>
    rw [run_cons, Reported.outcome_bind] at h
    obtain ⟨mid, hstep, hrest⟩ := bind_eq_ok_iff.mp h
    rw [← List.singleton_append, ← List.append_assoc]
    exact ih (hs.step hstep) hrest

theorem run_of_postorders (h : Postorders scale nodes stack) :
    (run scale [] nodes).outcome = .ok stack := by
  induction h with
  | nil => rfl
  | snoc _ ht ih =>
    rw [outcome_run_append, ih]
    show (run scale _ _).outcome = _
    rw [outcome_run_postorder, ht]
    rfl

/-- a run that succeeds has read postfix forms, and leaves their values -/
theorem run_eq_ok_iff :
    (run scale [] nodes).outcome = .ok stack ↔ Postorders scale nodes stack :=
  ⟨fun h => Postorders.nil.run h, run_of_postorders⟩

theorem postorders_singleton_iff {v : Decimal} :
    Postorders scale nodes [v] ↔ ∃ t : Expr Decimal, t.postorder = nodes ∧ t.value scale = .ok v := by
  constructor
  · intro h
    cases h with
    | snoc hs ht =>
      cases hs
      exact ⟨_, rfl, ht⟩
  · rintro ⟨t, rfl, ht⟩
    exact .snoc .nil ht

/-! ## refusals -/

/-- why there is no value: an operator has not enough operands, or cannot be applied to those it has,
or the list ends with none or with too many values -/
inductive Refuses (scale : Int) : List Node → ExpressionError → Prop
  | missing {front back : List Node} {op : Operator} {stack : List Decimal}
    (hs : Postorders scale front stack) (hlen : stack.length < 2) :
    Refuses scale (front ++ .operator op :: back) .missingOperand
  | failed {front back : List Node} {op : Operator} {a b : Decimal} {below : List Decimal}
    {cause : ArithmeticError} (hs : Postorders scale front (b :: a :: below))
    (hop : op.apply scale a b = .error cause) :
    Refuses scale (front ++ .operator op :: back) (.arithmetic cause)
  | leftover {nodes : List Node} {stack : List Decimal} (hs : Postorders scale nodes stack)
    (hlen : stack.length ≠ 1) : Refuses scale nodes .notSingleValue

/-- a run is refused at the first node that is -/
theorem run_eq_error_iff {e : Rejection} :
    (run scale stack nodes).outcome = .error e ↔
      ∃ front n back mid, nodes = front ++ n :: back ∧
        (run scale stack front).outcome = .ok mid ∧ (step scale mid n).outcome = .error e := by
  induction nodes generalizing stack with
  | nil =>
    constructor
    · intro h
      cases h
    · rintro ⟨front, n, back, mid, hn, -⟩
      simp at hn
  | cons n nodes ih =>
    rw [run_cons, Reported.outcome_bind, bind_eq_error_iff]
    constructor
    · rintro (h | ⟨next, hstep, h⟩)
      · exact ⟨[], n, nodes, stack, rfl, rfl, h⟩
      · obtain ⟨front, m, back, mid, rfl, hrun, hm⟩ := ih.mp h
        refine ⟨n :: front, m, back, mid, rfl, ?_, hm⟩
        rw [run_cons, Reported.outcome_bind, hstep]
        exact hrun
    · rintro ⟨front, m, back, mid, hn, hrun, hm⟩
      cases front with
      | nil =>
        cases hn
        cases hrun
        exact Or.inl hm
      | cons k front =>
        cases hn
        rw [run_cons, Reported.outcome_bind] at hrun
        obtain ⟨next, hstep, hrun⟩ := bind_eq_ok_iff.mp hrun
        exact Or.inr ⟨next, hstep, ih.mpr ⟨front, m, back, mid, rfl, hrun, hm⟩⟩

theorem refuses_of_step {front back : List Node} {n : Node} {e : Rejection}
    (hs : Postorders scale front stack) (h : (step scale stack n).outcome = .error e) :
    ∃ cause, e = .invalidExpression cause ∧ Refuses scale (front ++ n :: back) cause := by
  cases n with
  | number v => cases h
  | operator op =>
    match stack, hs, h with
    | b :: a :: below, hs, h =>
      rw [outcome_step_operator, map_eq_error_iff] at h
      cases hop : op.apply scale a b with
      | ok v =>
        rw [hop] at h
        cases h
      | error cause =>
        rw [hop] at h
        cases h
        exact ⟨_, rfl, .failed hs hop⟩
    | [_], hs, h =>
      cases h
      exact ⟨_, rfl, .missing hs Nat.one_lt_two⟩
    | [], hs, h =>
      cases h
      exact ⟨_, rfl, .missing hs Nat.zero_lt_two⟩

theorem single_eq_error_iff {e : Rejection} :
    (single stack).outcome = .error e ↔
      e = .invalidExpression .notSingleValue ∧ stack.length ≠ 1 := by
  match stack with
  | [v] => exact ⟨nofun, fun h => absurd rfl h.2⟩
  | [] =>
    constructor
    · intro h
      cases h
      exact ⟨rfl, by decide⟩
    · rintro ⟨rfl, -⟩
      rfl
  | _ :: _ :: below =>
    constructor
    · intro h
      cases h
      exact ⟨rfl, by simp⟩
    · rintro ⟨rfl, -⟩
      rfl

/-- what is refused is an invalid expression, for the first cause that is met -/
theorem refuses_of_evaluate {e : Rejection} (h : (evaluate scale nodes).outcome = .error e) :
    ∃ cause, e = .invalidExpression cause ∧ Refuses scale nodes cause := by
  unfold evaluate at h
  rw [Reported.outcome_bind, bind_eq_error_iff] at h
  rcases h with h | ⟨stack, hrun, h⟩
  · obtain ⟨front, n, back, mid, rfl, hrun, hstep⟩ := run_eq_error_iff.mp h
    exact refuses_of_step (run_eq_ok_iff.mp hrun) hstep
  · obtain ⟨rfl, hlen⟩ := single_eq_error_iff.mp h
    exact ⟨_, rfl, .leftover (run_eq_ok_iff.mp hrun) hlen⟩

/-- and nothing behind that node makes good for it -/
theorem evaluate_of_refuses {cause : ExpressionError} (h : Refuses scale nodes cause) :
    (evaluate scale nodes).outcome = .error (.invalidExpression cause) := by
  unfold evaluate
  rw [Reported.outcome_bind, bind_eq_error_iff]
  cases h with
  | @missing front back op stack hs hlen =>
    refine Or.inl (run_eq_error_iff.mpr ⟨front, _, back, stack, rfl, run_eq_ok_iff.mpr hs, ?_⟩)
    match stack, hlen with
    | [], _ => rfl
    | [_], _ => rfl
  | @failed front back op a b below cause hs hop =>
    refine Or.inl (run_eq_error_iff.mpr ⟨front, _, back, _, rfl, run_eq_ok_iff.mpr hs, ?_⟩)
    rw [outcome_step_operator, hop]
    rfl
  | leftover hs hlen =>
    exact Or.inr ⟨_, run_eq_ok_iff.mpr hs, single_eq_error_iff.mpr ⟨rfl, hlen⟩⟩

/-- A list of nodes has a value exactly if it is the postfix form of a tree with that value, and there
is one such tree at most. Every other list is an invalid expression, for the cause that `Refuses`
gives. -/
theorem evaluate_eq_ok_iff_postorder (scale : Int) (nodes : List Node) :
    (∀ v, (evaluate scale nodes).outcome = .ok v ↔
      ∃ t : Expr Decimal, t.postorder = nodes ∧ t.value scale = .ok v) ∧
    (∀ t u : Expr Decimal, t.postorder = nodes → u.postorder = nodes → t = u) ∧
    ((¬∃ (t : Expr Decimal) (v : Decimal), t.postorder = nodes ∧ t.value scale = .ok v) →
      ∃ cause, (evaluate scale nodes).outcome = .error (.invalidExpression cause)) ∧
    ∀ cause, (evaluate scale nodes).outcome = .error (.invalidExpression cause) ↔
      Refuses scale nodes cause := by
  have hvalue : ∀ v, (evaluate scale nodes).outcome = .ok v ↔
      ∃ t : Expr Decimal, t.postorder = nodes ∧ t.value scale = .ok v := by
    intro v
    rw [evaluate_eq_ok_iff, run_eq_ok_iff, postorders_singleton_iff]
  refine ⟨hvalue, fun t u ht hu => Expr.postorder_inj (ht.trans hu.symm), fun hnone => ?_,
    fun cause => ⟨fun h => ?_, evaluate_of_refuses⟩⟩
  · cases h : (evaluate scale nodes).outcome with
    | ok v =>
      obtain ⟨t, ht, hv⟩ := (hvalue v).mp h
      exact absurd ⟨t, v, ht, hv⟩ hnone
    | error e =>
      obtain ⟨cause, rfl, -⟩ := refuses_of_evaluate h
      exact ⟨cause, rfl⟩
  · obtain ⟨cause', he, hcause⟩ := refuses_of_evaluate h
    cases he
    exact hcause

end Node

end DecimalCalculator
