import DecimalCalculator.Reported

/-!
# The value of a postfix form

The nodes run on a stack of values: a number goes onto it, an operator takes its right and then its
left operand off and puts its value there (`step`). At the end one value must be left.
-/

namespace DecimalCalculator

namespace Node

/-- the stack behind a node; an operation that succeeds is reported -/
def step (scale : Int) (stack : List Decimal) : Node → Reported (List Decimal)
  | .number v => pure (v :: stack)
  | .operator op =>
    match stack with
    | r :: l :: below =>
      match op.apply scale l r with
      | .ok v => ⟨[.applied l op r v], .ok (v :: below)⟩
      | .error cause => .refused (.arithmetic cause)
    | _ => .refused .missingOperand

/-- the stack behind a list of nodes -/
def run (scale : Int) (stack : List Decimal) : List Node → Reported (List Decimal)
  | [] => pure stack
  | n :: rest => step scale stack n >>= fun next => run scale next rest

/-- the one value that is left -/
def single : List Decimal → Reported Decimal
  | [v] => pure v
  | _ => .refused .notSingleValue

/-- the value of a postfix form -/
def evaluate (scale : Int) (nodes : List Node) : Reported Decimal :=
  run scale [] nodes >>= single

theorem run_nil (scale : Int) (stack : List Decimal) : run scale stack [] = pure stack := rfl
theorem run_cons (scale : Int) (stack : List Decimal) (n : Node) (rest : List Node) :
    run scale stack (n :: rest) = step scale stack n >>= fun next => run scale next rest := rfl

theorem outcome_run_append (scale : Int) (stack : List Decimal) (a b : List Node) :
    (run scale stack (a ++ b)).outcome =
      (run scale stack a).outcome >>= fun next => (run scale next b).outcome := by
  induction a generalizing stack with
  | nil => rfl
  | cons n a ih =>
    rw [List.cons_append, run_cons, run_cons, Reported.outcome_bind, Reported.outcome_bind]
    cases (step scale stack n).outcome with
    | error e => rfl
    | ok next => exact ih next

end Node

end DecimalCalculator
