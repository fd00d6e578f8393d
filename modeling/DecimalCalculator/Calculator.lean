import DecimalCalculator.Assignment
import DecimalCalculator.Command
import DecimalCalculator.Postfix.Conversion
import DecimalCalculator.Postfix.Evaluation
import DecimalCalculator.Token.Scan

/-!
# The calculator

A calculator holds variables and the number of places of its quotients. It answers one line at a
time (`answer`); only an assignment changes it, and a line that is refused leaves it as it was.
-/

namespace DecimalCalculator

/-! ## the stages of an expression -/

/-- the tokens of an expression -/
def tokenStage (text : List Char) : Reported (List Token) := do
  let tokens ← Reported.explained (Token.ofText text)
  Reported.note (.tokenized tokens)
  return tokens

/-- the postfix form of tokens -/
def nodeStage (value? : String → Option Decimal) (tokens : List Token) : Reported (List Node) := do
  let nodes ← Reported.explained (Node.ofTokens value? tokens)
  Reported.note (.converted nodes)
  return nodes

/-- the postfix form of an expression -/
def nodesOfText (value? : String → Option Decimal) (text : List Char) : Reported (List Node) := do
  let tokens ← tokenStage text
  nodeStage value? tokens

theorem outcome_tokenStage (text : List Char) :
    (tokenStage text).outcome = Token.ofText text := by
  unfold tokenStage
  rw [Reported.outcome_bind, Reported.outcome_explained]
  cases Token.ofText text <;> rfl

theorem outcome_nodeStage (value? : String → Option Decimal) (tokens : List Token) :
    (nodeStage value? tokens).outcome = Node.ofTokens value? tokens := by
  unfold nodeStage
  rw [Reported.outcome_bind, Reported.outcome_explained]
  cases Node.ofTokens value? tokens <;> rfl

/-! ## answers -/

/-- what a line is answered with -/
inductive Reply where
  | silent
  | value (v : Decimal)
  | lines (texts : List String)
  | farewell
  deriving DecidableEq

/-- the lines that an answer is written as -/
def Reply.text : Reply → List String
  | .silent => []
  | .value v => [v.plain]
  | .lines texts => texts
  | .farewell => [DecimalCalculator.farewell]

/-- places of a quotient, if nothing else is asked for -/
def defaultScale : Nat := 20

structure Calculator where
  bindings : Bindings
  scale : Int

namespace Calculator

/-- a calculator without variables -/
def fresh (scale : Int) : Calculator := ⟨.empty, scale⟩

/-- the value of an expression -/
def calculate (c : Calculator) (text : List Char) : Reported Decimal := do
  let nodes ← nodesOfText c.bindings.get? text
  Node.evaluate c.scale nodes

/-- the answer to a command -/
def execute (c : Calculator) (line : List Char) : Except Rejection Reply :=
  (Command.ofText line).map fun
    | .exit => .farewell
    | .help => .lines helpLines
    | .variables => .lines c.bindings.listing

/-- the answer to a line without blanks at its ends, and the calculator behind it -/
def answerTrimmed (c : Calculator) (line : List Char) : Calculator × Reported Reply :=
  match LineKind.of line with
  | .command => (c, .silent (c.execute line))
  | .assignment =>
    let r := c.bindings.assign line
    match r.outcome with
    | .ok b => (⟨b, c.scale⟩, ⟨r.events, .ok .silent⟩)
    | .error e => (c, ⟨r.events, .error e⟩)
  | .expression =>
    let r := c.calculate line
    (c, ⟨r.events, r.outcome.map Reply.value⟩)
  | .invalid => (c, .refused .unrecognizable)

/-- the answer to a line, and the calculator behind it -/
def answer (c : Calculator) (line : List Char) : Calculator × Reported Reply :=
  let text := trim line
  if text.isEmpty then (c, pure .silent) else c.answerTrimmed text

/-! ## the answer by the kind of line -/

section
variable (c : Calculator) {line : List Char}

theorem answer_of_blank (h : trim line = []) : c.answer line = (c, pure .silent) := by
  unfold answer
  rw [h]
  rfl

theorem answer_of_ne_nil (h : trim line ≠ []) : c.answer line = c.answerTrimmed (trim line) := by
  unfold answer
  exact if_neg fun he => h (List.isEmpty_iff.mp he)

theorem answerTrimmed_of_command (h : LineKind.of line = .command) :
    c.answerTrimmed line = (c, .silent (c.execute line)) := by
  unfold answerTrimmed
  rw [h]

theorem answerTrimmed_of_expression (h : LineKind.of line = .expression) :
    c.answerTrimmed line =
      (c, ⟨(c.calculate line).events, (c.calculate line).outcome.map Reply.value⟩) := by
  unfold answerTrimmed
  rw [h]

theorem answerTrimmed_of_invalid (h : LineKind.of line = .invalid) :
    c.answerTrimmed line = (c, .refused .unrecognizable) := by
  unfold answerTrimmed
  rw [h]

theorem answerTrimmed_of_assigned {name : String} {v : Decimal}
    (h : LineKind.of line = .assignment) (ha : assignmentOf c.bindings line = .ok (name, v)) :
    c.answerTrimmed line =
      (⟨c.bindings.set name v, c.scale⟩, ⟨[.assigned name v], .ok .silent⟩) := by
  unfold answerTrimmed Bindings.assign
  simp only [h, ha]

theorem answerTrimmed_of_not_assigned {e : Rejection} (h : LineKind.of line = .assignment)
    (ha : assignmentOf c.bindings line = .error e) :
    c.answerTrimmed line = (c, .silent (.error e)) := by
  unfold answerTrimmed Bindings.assign
  simp only [h, ha]
  rfl

end

end Calculator

end DecimalCalculator
