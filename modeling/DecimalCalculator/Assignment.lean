import DecimalCalculator.Bindings
import DecimalCalculator.LineKind
import DecimalCalculator.Reported

/-!
# Assignments

`name = value`, with exactly one `=`. The name is made of letters, and the value is a number
literal or the name of a variable, whose value is copied. A refused assignment binds nothing.
-/

namespace DecimalCalculator

/-- exactly one `=` -/
def hasSingleEquals (line : List Char) : Bool :=
  line.contains '=' && !(valuePart line).contains '='

/-- the number that the right side of an assignment stands for -/
def assignedValue (b : Bindings) (text : List Char) : Except Rejection Decimal :=
  match Decimal.ofLiteral? text with
  | some v => .ok v
  | none =>
    if isIdentifier text then
      match b.get? (String.ofList text) with
      | some v => .ok v
      | none => .error (.unknownVariable (String.ofList text))
    else .error .invalidAssignment

/-- the name and the number of an assignment -/
def assignmentOf (b : Bindings) (line : List Char) : Except Rejection (String × Decimal) :=
  if hasSingleEquals line then
    let name := trim (targetPart line)
    if isIdentifier name then
      (assignedValue b (trim (valuePart line))).map fun v => (String.ofList name, v)
    else .error .invalidIdentifier
  else .error .invalidAssignment

/-- the bindings behind an assignment -/
def Bindings.assign (b : Bindings) (line : List Char) : Reported Bindings :=
  match assignmentOf b line with
  | .ok (name, value) => ⟨[.assigned name value], .ok (b.set name value)⟩
  | .error e => .silent (.error e)

end DecimalCalculator
