import DecimalCalculator.Text.Blank

/-!
# What a line is meant to be

A line that begins with `/` is a command. A line with a word, or nothing, in front of its first
`=` and something behind it is an assignment. Any other line with a letter, a digit, an operator
or a parenthesis is an expression. The kind says who answers the line, not that it is well formed.
-/

namespace DecimalCalculator

inductive LineKind where
  | command
  | assignment
  | expression
  | invalid
  deriving DecidableEq

/-- letters, digits and `_`, as they stand in front of a `=` -/
def isTargetChar (c : Char) : Bool := c.isAlphanum || c == '_'

/-- a character that an expression has at least one of -/
def isExpressionChar (c : Char) : Bool :=
  c.isAlphanum || ['-', '+', '*', '/', '^', '(', ')'].contains c

/-- what stands in front of the first `=`, and what stands behind it -/
def targetPart (line : List Char) : List Char := line.takeWhile (· != '=')
def valuePart (line : List Char) : List Char := (line.dropWhile (· != '=')).tail

def isAssignment (line : List Char) : Bool :=
  !(valuePart line).isEmpty && (trimEnd (targetPart line)).all isTargetChar

def LineKind.of (line : List Char) : LineKind :=
  if line.head? = some '/' then .command
  else if isAssignment line then .assignment
  else if line.any isExpressionChar then .expression
  else .invalid

end DecimalCalculator
