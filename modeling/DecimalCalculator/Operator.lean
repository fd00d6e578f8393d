import DecimalCalculator.Decimal.Power

/-!
# The five operators

All of them take two operands and group to the left, `^` included; `precedence` says which of two
operators binds tighter.
-/

namespace DecimalCalculator

inductive Operator where
  | add
  | sub
  | mul
  | div
  | pow
  deriving DecidableEq

namespace Operator

def symbol : Operator → Char
  | .add => '+'
  | .sub => '-'
  | .mul => '*'
  | .div => '/'
  | .pow => '^'

def ofSymbol? : Char → Option Operator
  | '+' => some .add
  | '-' => some .sub
  | '*' => some .mul
  | '/' => some .div
  | '^' => some .pow
  | _ => none

theorem ofSymbol?_symbol (op : Operator) : ofSymbol? op.symbol = some op := by
  cases op <;> rfl

theorem symbol_of_ofSymbol? {c : Char} {op : Operator} (h : ofSymbol? c = some op) :
    op.symbol = c := by
  unfold ofSymbol? at h
  split at h <;> cases h <;> rfl

def precedence : Operator → Nat
  | .add | .sub => 1
  | .mul | .div => 2
  | .pow => 3

/-- the value of `l op r`; a quotient has at most `scale` places -/
def apply (scale : Int) (op : Operator) (l r : Decimal) : Except ArithmeticError Decimal :=
  match op with
  | .add => .ok (l + r)
  | .sub => .ok (l - r)
  | .mul => .ok (l * r)
  | .div => l.divide r scale
  | .pow => l.power r scale

end Operator

end DecimalCalculator
