import DecimalCalculator.Log

/-!
# Outcomes with a report

A stage of the calculator gives a value or a refusal, and the events it reports until then. One
stage after the other reports one list after the other, and a refusal ends the report.
-/

namespace DecimalCalculator

structure Reported (α : Type) where
  events : List Event
  outcome : Except Rejection α

/-- the event that tells why a line was refused; only expressions have one -/
def Rejection.causes : Rejection → List Event
  | .invalidExpression cause => [.refused cause]
  | .unknownVariable name => [.undefined name]
  | _ => []

namespace Reported

variable {α β : Type}

def bind (x : Reported α) (f : α → Reported β) : Reported β :=
  match x.outcome with
  | .ok a =>
    let y := f a
    ⟨x.events ++ y.events, y.outcome⟩
  | .error e => ⟨x.events, .error e⟩

instance : Monad Reported where
  pure a := ⟨[], .ok a⟩
  bind := bind

/-- a stage that reports nothing but the cause of its refusal -/
def explained (r : Except Rejection α) : Reported α :=
  match r with
  | .ok a => ⟨[], .ok a⟩
  | .error e => ⟨e.causes, .error e⟩

/-- a stage that reports nothing at all -/
def silent (r : Except Rejection α) : Reported α := ⟨[], r⟩

/-- an expression refused for a cause -/
def refused (cause : ExpressionError) : Reported α := explained (.error (.invalidExpression cause))

def note (e : Event) : Reported Unit := ⟨[e], .ok ()⟩

/-! ## outcomes and events of a stage -/

theorem outcome_pure (a : α) : (pure a : Reported α).outcome = .ok a := rfl
theorem events_pure (a : α) : (pure a : Reported α).events = [] := rfl

theorem outcome_explained (r : Except Rejection α) : (explained r).outcome = r := by
  cases r <;> rfl

theorem outcome_bind (x : Reported α) (f : α → Reported β) :
    (x >>= f).outcome = x.outcome >>= fun a => (f a).outcome := by
  show (bind x f).outcome = _
  unfold bind
  cases x.outcome <;> rfl

theorem bind_of_ok {x : Reported α} {a : α} (h : x.outcome = .ok a) (f : α → Reported β) :
    x >>= f = ⟨x.events ++ (f a).events, (f a).outcome⟩ := by
  show bind x f = _
  unfold bind
  rw [h]

theorem bind_of_error {x : Reported α} {e : Rejection} (h : x.outcome = .error e)
    (f : α → Reported β) : x >>= f = ⟨x.events, .error e⟩ := by
  show bind x f = _
  unfold bind
  rw [h]

end Reported

end DecimalCalculator
