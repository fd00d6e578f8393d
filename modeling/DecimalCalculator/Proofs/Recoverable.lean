import DecimalCalculator.Proofs.Assignment
import DecimalCalculator.Proofs.Causes
import DecimalCalculator.Proofs.Infix

/-!
# Refusals are recoverable

Nothing but a failure to read or to write ends a session, and an answer does neither. This is shown
of each stage by all that it may refuse: the tokens, the postfix form and the evaluation of an
expression, an assignment, a command. So every line that is refused is refused for a fault of its
own (`Calculator.isRecoverable_of_answer`).
-/

namespace DecimalCalculator

/-- what has a cause in the log is a fault of the line -/
theorem Rejection.IsCaused.isRecoverable {e : Rejection} (h : e.IsCaused) :
    e.isRecoverable = true := by
  cases e with
  | io failure =>
    obtain ⟨cause, hc⟩ := h
    cases hc
  | unknownCommand | unknownVariable | invalidIdentifier | invalidAssignment
  | invalidExpression => rfl

/-! ## the stages of an expression -/

section
variable {e : Rejection}

theorem Token.isRecoverable_of_ofText {text : List Char} (h : ofText text = .error e) :
    e.isRecoverable = true := (isInvalidExpression_of_ofText h).isCaused.isRecoverable

theorem Node.isRecoverable_of_ofTokens {value? : String → Option Decimal} {ts : List Token}
    (h : ofTokens value? ts = .error e) : e.isRecoverable = true :=
  (isCaused_of_ofTokensFrom h).isRecoverable

theorem Node.isRecoverable_of_evaluate {scale : Int} {nodes : List Node}
    (h : (evaluate scale nodes).outcome = .error e) : e.isRecoverable = true :=
  ((explains_evaluate scale nodes).of_error e h).1.isRecoverable

theorem Calculator.isRecoverable_of_calculate {c : Calculator} {text : List Char}
    (h : (c.calculate text).outcome = .error e) : e.isRecoverable = true := by
  rw [outcome_calculate] at h
  rcases bind_eq_error_iff.mp h with h | ⟨ts, -, h⟩
  · exact Token.isRecoverable_of_ofText h
  rcases bind_eq_error_iff.mp h with h | ⟨nodes, -, h⟩
  · exact Node.isRecoverable_of_ofTokens h
  · exact Node.isRecoverable_of_evaluate h

/-! ## commands and assignments -/

theorem Calculator.isRecoverable_of_execute {c : Calculator} {line : List Char}
    (h : c.execute line = .error e) : e.isRecoverable = true := by
  rw [(Command.ofText_eq_error (map_eq_error_iff.mp h)).1]
  rfl

theorem isRecoverable_of_assignmentOf {b : Bindings} {line : List Char}
    (h : assignmentOf b line = .error e) : e.isRecoverable = true := by
  obtain rfl | rfl | ⟨name, rfl⟩ := assignmentOf_eq_error h
  · rfl
  · rfl
  · rfl

/-! ## lines -/

/-- whatever a line is refused for, the session moves on to the next one -/
theorem Calculator.isRecoverable_of_answer {c : Calculator} {line : List Char}
    (h : (c.answer line).2.outcome = .error e) : e.isRecoverable = true := by
  by_cases hne : trim line = []
  · rw [answer_of_blank c hne] at h
    cases h
  rw [answer_of_ne_nil c hne] at h
  cases hk : LineKind.of (trim line) with
  | command =>
    rw [answerTrimmed_of_command c hk] at h
    exact isRecoverable_of_execute h
  | assignment =>
    cases ha : assignmentOf c.bindings (trim line) with
    | ok p =>
      rw [answerTrimmed_of_assigned c hk ha] at h
      cases h
    | error e' =>
      rw [answerTrimmed_of_not_assigned c hk ha] at h
      cases h
      exact isRecoverable_of_assignmentOf ha
  | expression =>
    rw [answerTrimmed_of_expression c hk] at h
    exact isRecoverable_of_calculate (map_eq_error_iff.mp h)
  | invalid =>
    rw [answerTrimmed_of_invalid c hk] at h
    cases h
    rfl

end

end DecimalCalculator
