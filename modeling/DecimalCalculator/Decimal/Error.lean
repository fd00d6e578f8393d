/-!
# Causes of arithmetic failure
-/

namespace DecimalCalculator

inductive ArithmeticError where
  | divisionByZero
  | scaleOutOfRange
  | fractionalExponent
  | exponentTooLarge
  | powerTooLarge
  | zeroToNegativePower
  deriving DecidableEq

def ArithmeticError.reason : ArithmeticError → String
  | .divisionByZero => "division by zero"
  | .scaleOutOfRange => "operand scale out of range"
  | .fractionalExponent => "exponent is not a whole number"
  | .exponentTooLarge => "exponent too large"
  | .powerTooLarge => "power result too large"
  | .zeroToNegativePower => "zero raised to a negative power"

end DecimalCalculator
