import DecimalCalculator.Postfix.Node
import DecimalCalculator.Rejection

/-!
# From tokens to postfix form

Operands go out at once. An operator waits on a stack until an operator that binds less tightly, or
equally, or the end of its parenthesis shows that its right operand is complete. So one token
releases some nodes and leaves a new stack (`feed`), and the nodes released by all tokens, and then
by the end, are the postfix form.

* `release p st`   takes the operators off the stack that bind at least as tightly as `p`;
* `close? st`      takes off those down to the next open parenthesis, and that one;
* `drain? st`      takes off all, if no parenthesis is open.
-/

namespace DecimalCalculator

/-- what waits on the stack -/
inductive Pending where
  | operator (op : Operator)
  | opening
  deriving DecidableEq

namespace Pending

/-! ## the operators that leave the stack -/

def release (p : Nat) : List Pending → List Operator × List Pending
  | .operator op :: below =>
    if p ≤ op.precedence then
      let (ops, rest) := release p below
      (op :: ops, rest)
    else ([], .operator op :: below)
  | stack => ([], stack)

def close? : List Pending → Option (List Operator × List Pending)
  | [] => none
  | .opening :: below => some ([], below)
  | .operator op :: below => (close? below).map fun (ops, rest) => (op :: ops, rest)

def drain? : List Pending → Option (List Operator)
  | [] => some []
  | .opening :: _ => none
  | .operator op :: below => (drain? below).map (op :: ·)

theorem release_nil (p : Nat) : release p [] = ([], []) := rfl
theorem release_opening (p : Nat) (below : List Pending) :
    release p (.opening :: below) = ([], .opening :: below) := rfl
theorem release_of_le {p : Nat} {op : Operator} (h : p ≤ op.precedence) (below : List Pending) :
    release p (.operator op :: below) =
      (op :: (release p below).1, (release p below).2) := if_pos h
theorem release_of_lt {p : Nat} {op : Operator} (h : op.precedence < p) (below : List Pending) :
    release p (.operator op :: below) = ([], .operator op :: below) :=
  if_neg (Nat.not_le.mpr h)

theorem close?_nil : close? [] = none := rfl
theorem close?_opening (below : List Pending) : close? (.opening :: below) = some ([], below) := rfl
theorem close?_operator (op : Operator) (below : List Pending) :
    close? (.operator op :: below) =
      (close? below).map fun (ops, rest) => (op :: ops, rest) := rfl

theorem drain?_nil : drain? [] = some [] := rfl
theorem drain?_opening (below : List Pending) : drain? (.opening :: below) = none := rfl
theorem drain?_operator (op : Operator) (below : List Pending) :
    drain? (.operator op :: below) = (drain? below).map (op :: ·) := rfl

end Pending

namespace Node

/-! ## tokens -/

/-- the nodes that a token releases, and the stack behind it -/
def feed (value? : String → Option Decimal) (stack : List Pending) :
    Token → Except Rejection (List Node × List Pending)
  | .number v => .ok ([.number v], stack)
  | .identifier name =>
    match value? name with
    | some v => .ok ([.number v], stack)
    | none => .error (.unknownVariable name)
  | .operator op =>
    let (ops, rest) := Pending.release op.precedence stack
    .ok (ops.map .operator, .operator op :: rest)
  | .opening => .ok ([], .opening :: stack)
  | .closing =>
    match Pending.close? stack with
    | some (ops, rest) => .ok (ops.map .operator, rest)
    | none => .error (.invalidExpression .unopened)

/-- the nodes that the end of the expression releases -/
def finish (stack : List Pending) : Except Rejection (List Node) :=
  match Pending.drain? stack with
  | some ops => .ok (ops.map .operator)
  | none => .error (.invalidExpression .unclosed)

/-- the nodes released by tokens that follow on a stack -/
def ofTokensFrom (value? : String → Option Decimal) (stack : List Pending) :
    List Token → Except Rejection (List Node)
  | [] => finish stack
  | t :: rest =>
    match feed value? stack t with
    | .error e => .error e
    | .ok (out, next) => (ofTokensFrom value? next rest).map (out ++ ·)

/-- the postfix form of an expression, its names replaced by their values -/
def ofTokens (value? : String → Option Decimal) (tokens : List Token) :
    Except Rejection (List Node) := ofTokensFrom value? [] tokens

theorem ofTokensFrom_nil (value? : String → Option Decimal) (stack : List Pending) :
    ofTokensFrom value? stack [] = finish stack := rfl

theorem ofTokensFrom_cons_of_ok {value? : String → Option Decimal} {stack next : List Pending}
    {t : Token} {out : List Node} (h : feed value? stack t = .ok (out, next)) (rest : List Token) :
    ofTokensFrom value? stack (t :: rest) = (ofTokensFrom value? next rest).map (out ++ ·) := by
  rw [ofTokensFrom, h]

theorem ofTokensFrom_cons_of_error {value? : String → Option Decimal} {stack : List Pending}
    {t : Token} {e : Rejection} (h : feed value? stack t = .error e) (rest : List Token) :
    ofTokensFrom value? stack (t :: rest) = .error e := by
  rw [ofTokensFrom, h]

end Node

end DecimalCalculator
