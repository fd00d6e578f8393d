import DecimalCalculator.Proofs.Session.Dialogue

/-!
# Sessions whose reading or writing fails

An output with room for `n` bytes takes the first `n` bytes of what the session would write, and
the session ends there if that is not all (`runSession_of_le`, `runSession_of_lt`). On a source that
fails where it would end, a session does what it does on the bytes up to the last newline, unless
it gets to the end: then it does not end well (`runSession_lost_of_all`, `runSession_lost_of_exit`).
`runSession_cut_off` puts the two together.
-/

namespace DecimalCalculator

variable (prompt : String) (c : Calculator)

/-! ## an output with a limit -/

theorem runSession_of_le {s : Source} {n : Nat}
    (h : (runSession prompt c s none).output.length ≤ n) :
    runSession prompt c s (some n) = runSession prompt c s none := by
  unfold runSession at h ⊢
  rw [perform_unlimited] at h
  exact perform_of_le h _ c

theorem runSession_of_lt {s : Source} {n : Nat}
    (h : n < (runSession prompt c s none).output.length) :
    let whole := runSession prompt c s none
    let cut := runSession prompt c s (some n)
    cut.output = whole.output.take n ∧ cut.ending = .writeFailed ∧ cut.events <+: whole.events := by
  unfold runSession at h ⊢
  rw [perform_unlimited] at h ⊢
  obtain ⟨front, back, hactions, hcut⟩ :=
    perform_of_lt h (script prompt c s).ending c
  simp only [hcut]
  refine ⟨trivial, trivial, ?_⟩
  rw [hactions, logged_append]
  exact List.prefix_append _ _

/-! ## a source that fails -/

section
variable {bytes : List UInt8}

theorem runSession_lost_of_all
    (h : ∀ raw ∈ rawLines (complete bytes), ¬IsExit (lineText raw)) :
    let lost := runSession prompt c ⟨bytes, true⟩ none
    let ended := runSession prompt c ⟨complete bytes, false⟩ none
    lost.ending = .readFailed ∧
      ended = { lost with events := lost.events ++ [.endOfInput], ending := .finished } := by
  intro lost ended
  have hlost : lost = _ := runSession_of_all (s := ⟨bytes, true⟩) h prompt c
  have hended : ended = _ := runSession_of_all (s := ⟨complete bytes, false⟩) h prompt c
  rw [hlost, hended]
  refine ⟨rfl, ?_⟩
  simp only [if_true, List.append_nil]
  rfl

theorem runSession_lost_of_exit
    (h : ∃ raw ∈ rawLines (complete bytes), IsExit (lineText raw)) :
    let lost := runSession prompt c ⟨bytes, true⟩ none
    let ended := runSession prompt c ⟨complete bytes, false⟩ none
    lost.ending = .finished ∧ ended = lost := by
  intro lost ended
  rcases no_exit_or_first_exit (rawLines (complete bytes)) with
    hall | ⟨front, last, back, hraws, hfront, hlast⟩
  · obtain ⟨raw, hraw, hexit⟩ := h
    exact absurd hexit (hall raw hraw)
  · have hlost : lost = _ := runSession_of_exit (s := ⟨bytes, true⟩) hfront hlast hraws prompt c
    have hended : ended = _ :=
      runSession_of_exit (s := ⟨complete bytes, false⟩) hfront hlast hraws prompt c
    rw [hlost, hended]
    exact ⟨rfl, rfl⟩

end

/-- What is accepted by an output with room for `n` bytes are the first `n` bytes of the whole
output, and the session ends as on an output without a limit if that is all, else with the failure
to write; this holds on a source that fails as on one that ends. A source that fails is answered
like one that ends behind its last newline: the line that was not finished is neither answered nor
assigned, and the session ends with the failure to read unless a line asked to leave. -/
theorem runSession_cut_off (bytes : List UInt8) :
    (∀ (fails : Bool) (n : Nat),
      let whole := runSession prompt c ⟨bytes, fails⟩ none
      let cut := runSession prompt c ⟨bytes, fails⟩ (some n)
      cut.output = whole.output.take n ∧
        (whole.output.length ≤ n → cut = whole) ∧
        (n < whole.output.length → cut.ending = .writeFailed ∧ cut.events <+: whole.events)) ∧
    let lost := runSession prompt c ⟨bytes, true⟩ none
    let ended := runSession prompt c ⟨complete bytes, false⟩ none
    lost.output = ended.output ∧ lost.calculator = ended.calculator ∧
      ((∃ raw ∈ rawLines (complete bytes), IsExit (lineText raw)) →
        lost.ending = .finished ∧ ended = lost) ∧
      ((∀ raw ∈ rawLines (complete bytes), ¬IsExit (lineText raw)) →
        lost.ending = .readFailed ∧
          ended = { lost with events := lost.events ++ [.endOfInput], ending := .finished }) := by
  constructor
  · intro fails n whole cut
    rcases Nat.lt_or_ge n whole.output.length with hlt | hle
    · obtain ⟨houtput, hcut⟩ := runSession_of_lt prompt c hlt
      exact ⟨houtput, fun hle => absurd hlt (Nat.not_lt.mpr hle), fun _ => hcut⟩
    · have heq : cut = whole := runSession_of_le prompt c hle
      refine ⟨?_, fun _ => heq, fun hlt => absurd hle (Nat.not_le.mpr hlt)⟩
      rw [heq, List.take_of_length_le hle]
  · intro lost ended
    have hsame : lost.output = ended.output ∧ lost.calculator = ended.calculator := by
      by_cases h : ∃ raw ∈ rawLines (complete bytes), IsExit (lineText raw)
      · have heq : ended = lost := (runSession_lost_of_exit prompt c h).2
        rw [heq]
        exact ⟨rfl, rfl⟩
      · have hall : ∀ raw ∈ rawLines (complete bytes), ¬IsExit (lineText raw) :=
          fun raw hraw hexit => h ⟨raw, hraw, hexit⟩
        have heq : ended = { lost with events := _, ending := .finished } :=
          (runSession_lost_of_all prompt c hall).2
        rw [heq]
        exact ⟨rfl, rfl⟩
    exact ⟨hsame.1, hsame.2, runSession_lost_of_exit prompt c, runSession_lost_of_all prompt c⟩

end DecimalCalculator
