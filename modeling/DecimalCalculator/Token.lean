import DecimalCalculator.Decimal.Literal
import DecimalCalculator.Decimal.Printer
import DecimalCalculator.Operator

/-!
# Tokens

The pieces of an expression: numbers, names, operators and parentheses. A token is written as it
is read, a number with all its places; a list of tokens is written with one blank between two
neighbours.
-/

namespace DecimalCalculator

inductive Token where
  | number (value : Decimal)
  | identifier (name : String)
  | operator (op : Operator)
  | opening
  | closing
  deriving DecidableEq

/-- one or more ASCII letters -/
def isIdentifier (cs : List Char) : Bool := !cs.isEmpty && cs.all Char.isAlpha

namespace Token

def text : Token → String
  | .number value => value.plain
  | .identifier name => name
  | .operator op => op.symbol.toString
  | .opening => "("
  | .closing => ")"

end Token

/-- texts with one blank between two neighbours -/
def spaced : List String → List Char
  | [] => []
  | [s] => s.toList
  | s :: t :: rest => s.toList ++ ' ' :: spaced (t :: rest)

theorem spaced_nil : spaced [] = [] := rfl
theorem spaced_singleton (s : String) : spaced [s] = s.toList := rfl
theorem spaced_cons_cons (s t : String) (rest : List String) :
    spaced (s :: t :: rest) = s.toList ++ ' ' :: spaced (t :: rest) := rfl

def Token.render (tokens : List Token) : String := String.ofList (spaced (tokens.map Token.text))

end DecimalCalculator
