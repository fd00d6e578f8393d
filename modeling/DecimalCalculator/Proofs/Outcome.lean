import DecimalCalculator.Rejection

/-!
# Results and refusals

What is computed in steps has a result exactly if every step has one (`bind_eq_ok_iff`,
`map_eq_ok_iff`), also where arithmetic failures become refusals (`refusing`). Otherwise it is
refused as its first refused step is (`bind_eq_error_iff`, `map_eq_error_iff`).
-/

namespace DecimalCalculator

section
variable {ε α β : Type} {x : Except ε α} {b : β}

theorem bind_eq_ok_iff {f : α → Except ε β} : x >>= f = .ok b ↔ ∃ a, x = .ok a ∧ f a = .ok b := by
  cases x with
  | error e =>
    refine ⟨nofun, ?_⟩
    rintro ⟨a, ha, _⟩
    cases ha
  | ok a =>
    refine ⟨fun h => ⟨a, rfl, h⟩, ?_⟩
    rintro ⟨a', ha, h⟩
    cases ha
    exact h

theorem map_eq_ok_iff {f : α → β} : x.map f = .ok b ↔ ∃ a, x = .ok a ∧ f a = b := by
  cases x with
  | error e =>
    refine ⟨nofun, ?_⟩
    rintro ⟨a, ha, _⟩
    cases ha
  | ok a =>
    refine ⟨fun h => ⟨a, rfl, Except.ok.inj h⟩, ?_⟩
    rintro ⟨a', ha, rfl⟩
    cases ha
    rfl

/-- a sequence is refused where its first refused step is -/
theorem bind_eq_error_iff {f : α → Except ε β} {e : ε} :
    x >>= f = .error e ↔ x = .error e ∨ ∃ a, x = .ok a ∧ f a = .error e := by
  cases x with
  | error e' =>
    constructor
    · intro h
      cases h
      exact Or.inl rfl
    · rintro (h | ⟨a, ha, _⟩)
      · cases h
        rfl
      · cases ha
  | ok a =>
    refine ⟨fun h => Or.inr ⟨a, rfl, h⟩, ?_⟩
    rintro (h | ⟨a', ha, h⟩)
    · cases h
    · cases ha
      exact h

theorem map_eq_error_iff {f : α → β} {e : ε} : x.map f = .error e ↔ x = .error e := by
  cases x with
  | error e' => exact ⟨fun h => by cases h; rfl, fun h => by cases h; rfl⟩
  | ok a => exact ⟨nofun, nofun⟩

end

section
variable {α : Type}

/-- an arithmetic failure as the refusal of an expression -/
def refusing (r : Except ArithmeticError α) : Except Rejection α :=
  r.mapError fun cause => .invalidExpression (.arithmetic cause)

theorem refusing_ok (a : α) : refusing (.ok a : Except ArithmeticError α) = .ok a := rfl
theorem refusing_error (e : ArithmeticError) :
    refusing (.error e : Except ArithmeticError α) = .error (.invalidExpression (.arithmetic e)) :=
  rfl

theorem refusing_eq_ok {r : Except ArithmeticError α} {a : α} (h : refusing r = .ok a) :
    r = .ok a := by
  cases r with
  | error e => cases h
  | ok b =>
    cases h
    rfl

end

end DecimalCalculator
