import DecimalCalculator.Token

/-!
# Expressions in postfix form

Numbers and operators only: an operator stands behind its two operands, so no parenthesis is
needed, and a name is already replaced by its value.
-/

namespace DecimalCalculator

inductive Node where
  | number (value : Decimal)
  | operator (op : Operator)
  deriving DecidableEq

namespace Node

def text : Node → String
  | .number value => value.plain
  | .operator op => op.symbol.toString

def render (nodes : List Node) : String := String.ofList (spaced (nodes.map Node.text))

end Node

end DecimalCalculator
