import DecimalCalculator.Postfix.Node
import DecimalCalculator.Rejection

/-!
# The log

What the calculator reports while it works on a line: the stages of an expression, each operation
that succeeded, each assignment, and the cause of a refused expression. A session reports the end of
its input, and the program how the session began and ended. A log level lets an event through if it
asks for at least as much detail as the event has.
-/

namespace DecimalCalculator

inductive Level where
  | error
  | warn
  | info
  | debug
  | trace
  deriving DecidableEq

namespace Level

/-- how much is told at this level -/
def detail : Level → Nat
  | .error => 0
  | .warn => 1
  | .info => 2
  | .debug => 3
  | .trace => 4

/-- the level of a session that was asked `n` times to tell more -/
def ofVerbosity : Nat → Level
  | 0 => .warn
  | 1 => .info
  | 2 => .debug
  | _ => .trace

def label : Level → String
  | .error => "ERROR"
  | .warn => "WARN"
  | .info => "INFO"
  | .debug => "DEBUG"
  | .trace => "TRACE"

end Level

inductive Event where
  | tokenized (tokens : List Token)
  | converted (nodes : List Node)
  | applied (l : Decimal) (op : Operator) (r value : Decimal)
  | assigned (name : String) (value : Decimal)
  | refused (cause : ExpressionError)
  | undefined (name : String)
  | endOfInput
  | started (scale : Nat)
  | ended
  | failed (e : Rejection)
  deriving DecidableEq

namespace Event

def level : Event → Level
  | .failed _ => .error
  | .endOfInput | .started _ | .ended => .info
  | .applied .. => .trace
  | _ => .debug

def message : Event → String
  | .tokenized tokens => "tokens: " ++ Token.render tokens
  | .converted nodes => "postfix: " ++ Node.render nodes
  | .applied l op r value =>
    l.brief ++ " " ++ op.symbol.toString ++ " " ++ r.brief ++ " = " ++ value.brief
  | .assigned name value => name ++ " = " ++ value.brief
  | .refused cause => "invalid expression: " ++ cause.reason
  | .undefined name => "'" ++ name ++ "' is not defined"
  | .endOfInput => "end of input"
  | .started scale => "session started with scale " ++ String.ofList (decimalDigits scale)
  | .ended => "session ended"
  | .failed e => "input failed: " ++ e.message

def line (e : Event) : String := e.level.label ++ " " ++ e.message

def visibleAt (threshold : Level) (e : Event) : Bool := e.level.detail ≤ threshold.detail

end Event

/-- the lines of the log at a level -/
def logLines (threshold : Level) (events : List Event) : List String :=
  (events.filter (Event.visibleAt threshold)).map Event.line

theorem logLines_nil (threshold : Level) : logLines threshold [] = [] := rfl
theorem logLines_append (threshold : Level) (a b : List Event) :
    logLines threshold (a ++ b) = logLines threshold a ++ logLines threshold b := by
  simp [logLines]

end DecimalCalculator
