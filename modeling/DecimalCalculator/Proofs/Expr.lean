import DecimalCalculator.Postfix.Node
import DecimalCalculator.Proofs.Outcome

/-!
# Expressions as trees

A tree has its operators at the inner nodes, so it needs neither parentheses nor precedence. It is
the second side of everything that is said about postfix forms:

* `Expr.postorder`   the postfix form of a tree of decimals: both operands, then the operator;
* `Expr.value`       its value from the leaves upwards, the left operand first;
* `Expr.subtrees`    the tree itself and all trees below it;
* `Expr.FailsAt`     some operator below cannot be applied to the values of its operands.

`Expr.exists_error_iff_failsAt` says that the last one is the only way to have no value.
-/

namespace DecimalCalculator

inductive Expr (α : Type) where
  | leaf (a : α)
  | binary (op : Operator) (l r : Expr α)

namespace Expr

variable {α β : Type}

def map (f : α → β) : Expr α → Expr β
  | leaf a => leaf (f a)
  | binary op l r => binary op (l.map f) (r.map f)

def subtrees : Expr α → List (Expr α)
  | leaf a => [leaf a]
  | binary op l r => binary op l r :: (l.subtrees ++ r.subtrees)

theorem mem_subtrees_self (t : Expr α) : t ∈ t.subtrees := by
  cases t <;> exact List.mem_cons_self

theorem mem_subtrees_left {s l : Expr α} (h : s ∈ l.subtrees) (op : Operator) (r : Expr α) :
    s ∈ (binary op l r).subtrees :=
  List.mem_cons_of_mem _ (List.mem_append_left _ h)

theorem mem_subtrees_right {s r : Expr α} (h : s ∈ r.subtrees) (op : Operator) (l : Expr α) :
    s ∈ (binary op l r).subtrees :=
  List.mem_cons_of_mem _ (List.mem_append_right _ h)

/-! ## the postfix form -/

/-- both operands, and the operator behind them -/
def postorder : Expr Decimal → List Node
  | leaf v => [.number v]
  | binary op l r => l.postorder ++ r.postorder ++ [.operator op]

theorem postorder_binary (op : Operator) (l r : Expr Decimal) :
    (binary op l r).postorder = l.postorder ++ r.postorder ++ [.operator op] := rfl

/-! ## the value -/

/-- the value of a tree, from its leaves upwards -/
def value (scale : Int) : Expr Decimal → Except ArithmeticError Decimal
  | leaf v => .ok v
  | binary op l r => do
    let a ← l.value scale
    let b ← r.value scale
    op.apply scale a b

theorem value_binary_of_ok {scale : Int} {l r : Expr Decimal} {a b : Decimal}
    (hl : l.value scale = .ok a) (hr : r.value scale = .ok b) (op : Operator) :
    (binary op l r).value scale = op.apply scale a b := by
  rw [value, hl, hr]
  rfl

theorem value_binary_of_error_left {scale : Int} {l : Expr Decimal} {e : ArithmeticError}
    (hl : l.value scale = .error e) (op : Operator) (r : Expr Decimal) :
    (binary op l r).value scale = .error e := by
  rw [value, hl]
  rfl

theorem value_binary_of_error_right {scale : Int} {l r : Expr Decimal} {a : Decimal}
    {e : ArithmeticError} (hl : l.value scale = .ok a) (hr : r.value scale = .error e)
    (op : Operator) : (binary op l r).value scale = .error e := by
  rw [value, hl, hr]
  rfl

/-- a tree with a value has values at both operands -/
theorem value_binary_eq_ok {scale : Int} {op : Operator} {l r : Expr Decimal} {v : Decimal}
    (h : (binary op l r).value scale = .ok v) :
    ∃ a b, l.value scale = .ok a ∧ r.value scale = .ok b ∧ op.apply scale a b = .ok v := by
  rw [value] at h
  obtain ⟨a, hl, h⟩ := bind_eq_ok_iff.mp h
  obtain ⟨b, hr, h⟩ := bind_eq_ok_iff.mp h
  exact ⟨a, b, hl, hr, h⟩

/-! ## where a tree fails -/

/-- some operator has operands with values, but cannot be applied to them -/
def FailsAt (scale : Int) (t : Expr Decimal) : Prop :=
  ∃ op l r a b cause, binary op l r ∈ t.subtrees ∧ l.value scale = .ok a ∧
    r.value scale = .ok b ∧ op.apply scale a b = .error cause

/-- a tree that has a value has one at every tree below it -/
theorem value_of_mem_subtrees {scale : Int} {s t : Expr Decimal} {v : Decimal}
    (hs : s ∈ t.subtrees) (ht : t.value scale = .ok v) : ∃ w, s.value scale = .ok w := by
  induction t generalizing v with
  | leaf a =>
    rw [List.mem_singleton.mp hs]
    exact ⟨v, ht⟩
  | binary op l r ihl ihr =>
    obtain ⟨a, b, hl, hr, _⟩ := value_binary_eq_ok ht
    rcases List.mem_cons.mp hs with rfl | hs
    · exact ⟨v, ht⟩
    · rcases List.mem_append.mp hs with hs | hs
      · exact ihl hs hl
      · exact ihr hs hr

theorem failsAt_of_error {scale : Int} {t : Expr Decimal} {e : ArithmeticError}
    (h : t.value scale = .error e) : t.FailsAt scale := by
  induction t generalizing e with
  | leaf a => cases h
  | binary op l r ihl ihr =>
    cases hl : l.value scale with
    | error el =>
      obtain ⟨op', l', r', a, b, cause, hs, hv⟩ := ihl hl
      exact ⟨op', l', r', a, b, cause, mem_subtrees_left hs op r, hv⟩
    | ok a =>
      cases hr : r.value scale with
      | error er =>
        obtain ⟨op', l', r', a, b, cause, hs, hv⟩ := ihr hr
        exact ⟨op', l', r', a, b, cause, mem_subtrees_right hs op l, hv⟩
      | ok b =>
        rw [value_binary_of_ok hl hr] at h
        exact ⟨op, l, r, a, b, e, mem_subtrees_self _, hl, hr, h⟩

/-- a tree has no value exactly when some operator in it cannot be applied -/
theorem exists_error_iff_failsAt (scale : Int) (t : Expr Decimal) :
    (∃ e, t.value scale = .error e) ↔ t.FailsAt scale := by
  constructor
  · rintro ⟨e, he⟩
    exact failsAt_of_error he
  · rintro ⟨op, l, r, a, b, cause, hs, hl, hr, hop⟩
    cases hv : t.value scale with
    | error e => exact ⟨e, rfl⟩
    | ok v =>
      obtain ⟨w, hw⟩ := value_of_mem_subtrees hs hv
      rw [value_binary_of_ok hl hr, hop] at hw
      cases hw

end Expr

end DecimalCalculator
