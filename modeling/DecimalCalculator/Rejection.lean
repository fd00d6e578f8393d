import DecimalCalculator.Decimal.Error

/-!
# What goes wrong

A line that is refused is answered with one of five messages, and the session goes on: the refusal
is recoverable. The cause of an invalid expression is kept beside its message; it goes into the
log. A failure to read or to write is no answer to a line. It has the text that the system gives it,
and it ends the session.
-/

namespace DecimalCalculator

inductive ExpressionError where
  | doubledOperator
  | malformedWord (word : String)
  | signWithoutNumber
  | unopened
  | unclosed
  | missingOperand
  | notSingleValue
  | unrecognizable
  | arithmetic (cause : ArithmeticError)
  deriving DecidableEq

def ExpressionError.reason : ExpressionError → String
  | .doubledOperator => "doubled '*' or '/'"
  | .malformedWord word => "malformed token '" ++ word ++ "'"
  | .signWithoutNumber => "leading '-' not followed by a number"
  | .unopened => "could not find matching '('"
  | .unclosed => "could not find matching ')'"
  | .missingOperand => "missing operand"
  | .notSingleValue => "postfix did not reduce to a single value"
  | .unrecognizable => "no recognizable characters"
  | .arithmetic cause => cause.reason

inductive Rejection where
  | unknownCommand
  | unknownVariable (name : String)
  | invalidIdentifier
  | invalidAssignment
  | invalidExpression (cause : ExpressionError)
  | io (failure : String)
  deriving DecidableEq

namespace Rejection

def message : Rejection → String
  | .unknownCommand => "Unknown command"
  | .unknownVariable _ => "Unknown variable"
  | .invalidIdentifier => "Invalid identifier"
  | .invalidAssignment => "Invalid assignment"
  | .invalidExpression _ => "Invalid expression"
  | .io failure => failure

/-- it is reported, and the session moves on to the next line -/
def isRecoverable : Rejection → Bool
  | .io _ => false
  | _ => true

/-- what is recoverable is told with one of five messages -/
theorem message_mem {e : Rejection} (h : e.isRecoverable = true) :
    e.message ∈ ["Unknown command", "Unknown variable", "Invalid identifier",
      "Invalid assignment", "Invalid expression"] := by
  cases e with
  | io failure => cases h
  | unknownCommand | unknownVariable | invalidIdentifier | invalidAssignment | invalidExpression =>
    simp [message]

end Rejection

end DecimalCalculator
