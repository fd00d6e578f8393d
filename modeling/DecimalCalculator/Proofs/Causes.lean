import DecimalCalculator.Calculator
import DecimalCalculator.Proofs.Outcome

/-!
# Causes in the log

A cause is an event of the level `debug` that does not tell how far the work has come. A stage
explains its refusals if it reports exactly one cause when it refuses, the one that belongs to the
refusal, and none when it gives a value (`Reported.Explains`). Stages that explain explain in a
sequence, so an expression does from its text to its value (`Calculator.explains_calculate`).

Commands and assignments do not: nothing is reported when they are refused
(`Calculator.causes_of_answer`).
-/

namespace DecimalCalculator

/-! ## causes among events -/

namespace Event

/-- tells what was read, converted or assigned -/
def isProgress : Event → Bool
  | .tokenized _ | .converted _ | .assigned .. => true
  | _ => false

def isCause (e : Event) : Bool := decide (e.level = .debug) && !e.isProgress

end Event

def causesIn (events : List Event) : List Event := events.filter Event.isCause

theorem causesIn_nil : causesIn [] = [] := rfl
theorem causesIn_append (a b : List Event) : causesIn (a ++ b) = causesIn a ++ causesIn b :=
  List.filter_append ..
theorem causesIn_of_not_isCause {e : Event} (h : e.isCause = false) : causesIn [e] = [] :=
  List.filter_cons_of_neg (by simp [h])

/-- the refusal has a cause, and no more than one -/
def Rejection.IsCaused (e : Rejection) : Prop := ∃ cause, e.causes = [cause]

theorem Rejection.isCaused_invalidExpression (cause : ExpressionError) :
    (invalidExpression cause).IsCaused := ⟨_, rfl⟩

/-- the refusal of a text that is no expression -/
def Rejection.IsInvalidExpression (e : Rejection) : Prop := ∃ cause, e = .invalidExpression cause

theorem Rejection.IsInvalidExpression.isCaused {e : Rejection} (h : e.IsInvalidExpression) :
    e.IsCaused := by
  obtain ⟨cause, rfl⟩ := h
  exact isCaused_invalidExpression cause

theorem Rejection.isCaused_unknownVariable (name : String) : (unknownVariable name).IsCaused :=
  ⟨_, rfl⟩

theorem Rejection.causesIn_causes (e : Rejection) : causesIn e.causes = e.causes := by
  cases e <;> rfl

/-! ## stages that explain their refusals -/

namespace Reported

variable {α β : Type}

structure Explains (x : Reported α) : Prop where
  of_ok : ∀ a, x.outcome = .ok a → causesIn x.events = []
  of_error : ∀ e, x.outcome = .error e → e.IsCaused ∧ causesIn x.events = e.causes

theorem explains_pure (a : α) : (pure a : Reported α).Explains := ⟨fun _ _ => rfl, nofun⟩

theorem explains_note {e : Event} (h : e.isCause = false) : (note e).Explains :=
  ⟨fun _ _ => causesIn_of_not_isCause h, nofun⟩

theorem explains_explained {r : Except Rejection α} (h : ∀ e, r = .error e → e.IsCaused) :
    (explained r).Explains := by
  cases r with
  | ok a => exact ⟨fun _ _ => rfl, nofun⟩
  | error e =>
    refine ⟨nofun, fun e' he => ?_⟩
    cases he
    exact ⟨h e rfl, e.causesIn_causes⟩

theorem explains_refused (cause : ExpressionError) : (refused cause : Reported α).Explains := by
  refine explains_explained fun e he => ?_
  cases he
  exact Rejection.isCaused_invalidExpression cause

/-- the first refusal ends the report, so its cause is the only one -/
theorem Explains.bind {x : Reported α} {f : α → Reported β} (hx : x.Explains)
    (hf : ∀ a, (f a).Explains) : (x >>= f).Explains := by
  cases ho : x.outcome with
  | error e =>
    rw [bind_of_error ho]
    refine ⟨nofun, fun e' he => ?_⟩
    cases he
    exact hx.of_error e ho
  | ok a =>
    have hnone := hx.of_ok a ho
    rw [bind_of_ok ho]
    refine ⟨fun b hb => ?_, fun e he => ?_⟩
    · rw [causesIn_append, hnone, (hf a).of_ok b hb, List.nil_append]
    · rw [causesIn_append, hnone, List.nil_append]
      exact (hf a).of_error e he

theorem Explains.map {x : Reported α} (hx : x.Explains) (f : α → β) :
    Explains ⟨x.events, x.outcome.map f⟩ := by
  refine ⟨fun b hb => ?_, fun e he => hx.of_error e (map_eq_error_iff.mp he)⟩
  obtain ⟨a, ha, -⟩ := map_eq_ok_iff.mp hb
  exact hx.of_ok a ha

end Reported

/-! ## the stages of an expression -/

namespace Token

theorem isInvalidExpression_of_ofWord {w : List Char} {e : Rejection} (h : ofWord w = .error e) :
    e.IsInvalidExpression := by
  unfold ofWord at h
  split at h
  · cases h
  · split at h
    · cases h
    · cases h
      exact ⟨_, rfl⟩

theorem isInvalidExpression_of_ofLexeme {w : List Char} {e : Rejection}
    (h : ofLexeme w = .error e) : e.IsInvalidExpression := by
  unfold ofLexeme at h
  split at h
  · cases h
  · cases h
  · split at h
    · cases h
    · exact isInvalidExpression_of_ofWord h
  · exact isInvalidExpression_of_ofWord h

theorem isInvalidExpression_of_collect {ws : List (List Char)} {e : Rejection}
    (h : collect (ofLexemes ws) = .error e) : e.IsInvalidExpression := by
  induction ws with
  | nil => cases h
  | cons w ws ih =>
    cases hw : ofLexeme w with
    | error e' =>
      rw [ofLexemes_cons_of_error hw] at h
      cases h
      exact isInvalidExpression_of_ofLexeme hw
    | ok t =>
      rw [ofLexemes_cons_of_ok hw, collect_ok_cons] at h
      exact ih (map_eq_error_iff.mp h)

theorem isInvalidExpression_of_dropLeadingSign {ts : List Token} {e : Rejection}
    (h : dropLeadingSign ts = .error e) : e.IsInvalidExpression := by
  unfold dropLeadingSign at h
  split at h
  · cases h
  · cases h
  · cases h
    exact ⟨_, rfl⟩
  · cases h

theorem isInvalidExpression_of_normalize {text : List Char} {e : Rejection}
    (h : normalize text = .error e) : e.IsInvalidExpression := by
  cases hd : hasDoubled (dropBlanks text) with
  | true =>
    rw [normalize_of_hasDoubled hd] at h
    cases h
    exact ⟨_, rfl⟩
  | false =>
    rw [normalize_of_not_hasDoubled hd] at h
    cases h

theorem isInvalidExpression_of_ofText {text : List Char} {e : Rejection}
    (h : ofText text = .error e) : e.IsInvalidExpression := by
  rcases bind_eq_error_iff.mp h with h | ⟨dense, -, h⟩
  · exact isInvalidExpression_of_normalize h
  · rcases bind_eq_error_iff.mp h with h | ⟨ts, -, h⟩
    · exact isInvalidExpression_of_collect h
    · exact isInvalidExpression_of_dropLeadingSign h

end Token

namespace Node

variable {value? : String → Option Decimal}

theorem isCaused_of_feed {stack : List Pending} {t : Token} {e : Rejection}
    (h : feed value? stack t = .error e) : e.IsCaused := by
  unfold feed at h
  split at h
  · cases h
  · split at h
    · cases h
    · cases h
      exact Rejection.isCaused_unknownVariable _
  · cases h
  · cases h
  · split at h
    · cases h
    · cases h
      exact Rejection.isCaused_invalidExpression _

theorem isCaused_of_ofTokensFrom {ts : List Token} {stack : List Pending} {e : Rejection}
    (h : ofTokensFrom value? stack ts = .error e) : e.IsCaused := by
  induction ts generalizing stack with
  | nil =>
    rw [ofTokensFrom_nil] at h
    unfold finish at h
    split at h
    · cases h
    · cases h
      exact Rejection.isCaused_invalidExpression _
  | cons t ts ih =>
    cases hf : feed value? stack t with
    | error e' =>
      rw [ofTokensFrom_cons_of_error hf] at h
      cases h
      exact isCaused_of_feed hf
    | ok r =>
      rw [ofTokensFrom_cons_of_ok hf] at h
      exact ih (map_eq_error_iff.mp h)

theorem explains_step (scale : Int) (stack : List Decimal) (n : Node) :
    (step scale stack n).Explains := by
  unfold step
  split
  · exact Reported.explains_pure _
  · split
    · split
      · exact ⟨fun _ _ => rfl, nofun⟩
      · exact Reported.explains_refused _
    · exact Reported.explains_refused _

theorem explains_run (scale : Int) (stack : List Decimal) (nodes : List Node) :
    (run scale stack nodes).Explains := by
  induction nodes generalizing stack with
  | nil => exact Reported.explains_pure stack
  | cons n nodes ih => exact (explains_step scale stack n).bind ih

theorem explains_single (stack : List Decimal) : (single stack).Explains := by
  unfold single
  split
  · exact Reported.explains_pure _
  · exact Reported.explains_refused _

theorem explains_evaluate (scale : Int) (nodes : List Node) : (evaluate scale nodes).Explains :=
  (explains_run scale [] nodes).bind explains_single

end Node

theorem explains_tokenStage (text : List Char) : (tokenStage text).Explains :=
  have hcaused : ∀ e, Token.ofText text = .error e → e.IsCaused :=
    fun _ h => (Token.isInvalidExpression_of_ofText h).isCaused
  (Reported.explains_explained hcaused).bind fun _ =>
    (Reported.explains_note rfl).bind fun _ => Reported.explains_pure _

theorem explains_nodeStage (value? : String → Option Decimal) (tokens : List Token) :
    (nodeStage value? tokens).Explains :=
  (Reported.explains_explained fun _ => Node.isCaused_of_ofTokensFrom).bind fun _ =>
    (Reported.explains_note rfl).bind fun _ => Reported.explains_pure _

namespace Calculator

theorem explains_calculate (c : Calculator) (text : List Char) : (c.calculate text).Explains :=
  ((explains_tokenStage text).bind fun ts => explains_nodeStage c.bindings.get? ts).bind fun nodes =>
    Node.explains_evaluate c.scale nodes

/-! ## all lines -/

/-- an expression explains its refusal, and so does a line of no kind -/
theorem explains_answer (c : Calculator) {line : List Char}
    (h : LineKind.of (trim line) = .expression ∨ LineKind.of (trim line) = .invalid) :
    (c.answer line).2.Explains := by
  by_cases hne : trim line = []
  · rw [answer_of_blank c hne]
    exact Reported.explains_pure _
  rw [answer_of_ne_nil c hne]
  rcases h with h | h
  · rw [answerTrimmed_of_expression c h]
    exact (explains_calculate c _).map Reply.value
  · rw [answerTrimmed_of_invalid c h]
    exact Reported.explains_refused _

/-- what commands and assignments report is no cause -/
theorem causesIn_answer (c : Calculator) {line : List Char}
    (h : LineKind.of (trim line) = .command ∨ LineKind.of (trim line) = .assignment) :
    causesIn (c.answer line).2.events = [] := by
  have hne : trim line ≠ [] := by
    intro he
    rw [he] at h
    exact h.elim nofun nofun
  rw [answer_of_ne_nil c hne]
  rcases h with h | h
  · rw [answerTrimmed_of_command c h]
    rfl
  · cases ha : assignmentOf c.bindings (trim line) with
    | ok p =>
      rw [answerTrimmed_of_assigned c h ha]
      rfl
    | error e =>
      rw [answerTrimmed_of_not_assigned c h ha]
      rfl

/-- A reply comes without a cause in the log. A refusal comes with its own cause and no other if
the line is an expression or of no kind at all; if it is a command or an assignment, the refusal
comes with none. -/
theorem causes_of_answer (c : Calculator) (line : List Char) :
    (∀ reply, (c.answer line).2.outcome = .ok reply → causesIn (c.answer line).2.events = []) ∧
    ∀ e, (c.answer line).2.outcome = .error e →
      (LineKind.of (trim line) = .expression ∨ LineKind.of (trim line) = .invalid →
        ∃ cause, e.causes = [cause] ∧ causesIn (c.answer line).2.events = [cause]) ∧
      (LineKind.of (trim line) = .command ∨ LineKind.of (trim line) = .assignment →
        causesIn (c.answer line).2.events = []) := by
  refine ⟨fun reply hr => ?_, fun e he => ⟨fun hk => ?_, fun hk => causesIn_answer c hk⟩⟩
  · cases hk : LineKind.of (trim line) with
    | command => exact causesIn_answer c (Or.inl hk)
    | assignment => exact causesIn_answer c (Or.inr hk)
    | expression => exact (explains_answer c (Or.inl hk)).of_ok reply hr
    | invalid => exact (explains_answer c (Or.inr hk)).of_ok reply hr
  · obtain ⟨⟨cause, hcause⟩, hevents⟩ := (explains_answer c hk).of_error e he
    exact ⟨cause, hcause, hevents.trans hcause⟩

/-- an unknown variable has a cause in an expression, but none where it is copied -/
theorem causes_of_answer_copied :
    ((fresh 20).answer "b".toList).2 =
        ⟨[.tokenized [.identifier "b"], .undefined "b"], .error (.unknownVariable "b")⟩ ∧
      ((fresh 20).answer "a = b".toList).2.outcome = .error (.unknownVariable "b") ∧
      causesIn ((fresh 20).answer "a = b".toList).2.events = [] := by
  have hcopy : ((fresh 20).answer "a = b".toList).2.outcome = .error (.unknownVariable "b") := rfl
  exact ⟨rfl, hcopy, ((causes_of_answer (fresh 20) "a = b".toList).2 _ hcopy).2 (Or.inr rfl)⟩

end Calculator

end DecimalCalculator
