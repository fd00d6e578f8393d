import Mathlib
import DecimalCalculator.Proofs.Dispatch
import DecimalCalculator.Proofs.Session.Dialogue
import DecimalCalculator.Proofs.Text.Lossy

/-!
# Lines with a foreign character

No command, no name, no literal and no token has a foreign character, and only blanks are dropped
from a text before it is cut into tokens. So whoever takes a line with such a character refuses it
(`Calculator.refusesByKind`), and nothing but the line of its message comes of it
(`runSession_of_refused`). Bytes that are no text are such a line: they are read with U+FFFD in
it (`replacement_mem_lineText`).
-/

namespace DecimalCalculator

/-! ## foreign characters -/

/-- no letter, digit, point or `=`, no operator, no parenthesis and no blank -/
def isForeign (c : Char) : Bool := !(isExpressionChar c || c == '.' || c == '=' || isBlank c)

def HasForeign (line : List Char) : Prop := ∃ c ∈ line, isForeign c = true

theorem isForeign_replacement : isForeign Utf8.replacement = true := by decide

theorem isBlank_of_isForeign {c : Char} (h : isForeign c = true) : isBlank c = false := by
  cases hb : isBlank c with
  | false => rfl
  | true => simp [isForeign, hb] at h

theorem hasForeign_trim {line : List Char} (h : HasForeign line) : HasForeign (trim line) := by
  obtain ⟨c, hc, hf⟩ := h
  exact ⟨c, (mem_trim_iff (isBlank_of_isForeign hf)).mpr hc, hf⟩

theorem hasForeign_sides {l r : List Char} (h : HasForeign (l ++ '=' :: r)) :
    HasForeign l ∨ HasForeign r := by
  obtain ⟨c, hc, hf⟩ := h
  rcases List.mem_append.mp hc with hl | hr
  · exact Or.inl ⟨c, hl, hf⟩
  · rcases List.mem_cons.mp hr with rfl | hr
    · cases hf
    · exact Or.inr ⟨c, hr, hf⟩

theorem not_hasForeign_of_ofText {t : List Char} {ts : List Token} (h : Token.ofText t = .ok ts) :
    ¬HasForeign t := by
  rintro ⟨c, hc, hf⟩
  rcases Token.mem_of_ofText h c hc with hblank | hchar | rfl
  · rw [isBlank_of_isForeign hf] at hblank
    cases hblank
  · simp [isForeign, hchar] at hf
  · cases hf

theorem not_hasForeign_command (k : Command) : ¬HasForeign k.text.toList := by
  have hnone : k.text.toList.any isForeign = false := by cases k <;> rfl
  rintro ⟨c, hc, hf⟩
  exact Bool.false_ne_true (hnone.symm.trans (List.any_eq_true.mpr ⟨c, hc, hf⟩))

/-! ## who takes the line refuses it -/

/-- how a line of a kind is refused for a character that it may not have -/
def Rejection.Fits (e : Rejection) : LineKind → Prop
  | .command => e = .unknownCommand
  | .assignment => e = .invalidIdentifier ∨ e = .invalidAssignment
  | .expression | .invalid => ∃ cause, e = .invalidExpression cause

section
variable {t : List Char} (h : HasForeign t)
include h

theorem not_isIdentifier_of_hasForeign : ¬isIdentifier t = true :=
  fun hid => not_hasForeign_of_ofText (Token.ofText_of_isIdentifier hid) h

theorem assignedValue_of_hasForeign (b : Bindings) :
    assignedValue b t = .error .invalidAssignment := by
  unfold assignedValue
  cases hv : Decimal.ofLiteral? t with
  | some v => exact absurd h (not_hasForeign_of_ofText (Token.ofText_of_ofLiteral? hv))
  | none => exact if_neg (not_isIdentifier_of_hasForeign h)

/-- the name is refused if it has the character, and the value otherwise -/
theorem assignmentOf_of_hasForeign (b : Bindings) :
    ∃ e, assignmentOf b t = .error e ∧ e.Fits .assignment := by
  by_cases hequals : '=' ∈ t
  · obtain ⟨l, r, rfl, hl⟩ := List.eq_append_cons_of_mem hequals
    rw [assignmentOf_append b hl]
    split_ifs with hr hname
    · exact ⟨_, rfl, Or.inr rfl⟩
    · have hleft : ¬HasForeign l :=
        fun hf => not_isIdentifier_of_hasForeign (hasForeign_trim hf) hname
      have hright := hasForeign_trim ((hasForeign_sides h).resolve_left hleft)
      rw [assignedValue_of_hasForeign hright]
      exact ⟨_, rfl, Or.inr rfl⟩
    · exact ⟨_, rfl, Or.inl rfl⟩
  · exact ⟨_, assignmentOf_of_not_mem b hequals, Or.inr rfl⟩

namespace Calculator

theorem execute_of_hasForeign (c : Calculator) : c.execute t = .error .unknownCommand := by
  unfold execute
  cases hk : Command.ofText t with
  | error e =>
    rw [(Command.ofText_eq_error hk).1]
    rfl
  | ok k => exact absurd (Command.ofText_eq_ok hk ▸ h) (not_hasForeign_command k)

theorem calculate_of_hasForeign (c : Calculator) :
    ∃ cause, (c.calculate t).outcome = .error (.invalidExpression cause) := by
  rw [outcome_calculate]
  cases hts : Token.ofText t with
  | ok ts => exact absurd h (not_hasForeign_of_ofText hts)
  | error e =>
    obtain ⟨cause, rfl⟩ := Token.isInvalidExpression_of_ofText hts
    exact ⟨cause, rfl⟩

end Calculator

end

namespace Calculator

/-- a line is refused with `e`, as its kind is, and changes nothing; the session goes on -/
structure RefusesByKind (c : Calculator) (line : List Char) (e : Rejection) : Prop where
  refused : (c.answer line).2.outcome = .error e
  recoverable : e.isRecoverable = true
  unchanged : (c.answer line).1 = c
  fits : e.Fits (LineKind.of (trim line))

theorem refusesByKind (c : Calculator) {line : List Char} (h : HasForeign line) :
    ∃ e, c.RefusesByKind line e := by
  have htrim := hasForeign_trim h
  have hanswer : c.answer line = c.answerTrimmed (trim line) := by
    obtain ⟨x, hx, -⟩ := htrim
    exact c.answer_of_ne_nil (List.ne_nil_of_mem hx)
  cases hk : LineKind.of (trim line) with
  | command =>
    rw [answerTrimmed_of_command c hk, execute_of_hasForeign htrim] at hanswer
    exact ⟨.unknownCommand, by rw [hanswer]; rfl, rfl, by rw [hanswer], by rw [hk]; rfl⟩
  | assignment =>
    obtain ⟨e, ha, hfits⟩ := assignmentOf_of_hasForeign htrim c.bindings
    rw [answerTrimmed_of_not_assigned c hk ha] at hanswer
    exact ⟨e, by rw [hanswer]; rfl, isRecoverable_of_assignmentOf ha, by rw [hanswer], by rwa [hk]⟩
  | expression =>
    obtain ⟨cause, hcause⟩ := c.calculate_of_hasForeign htrim
    rw [answerTrimmed_of_expression c hk, hcause] at hanswer
    exact ⟨.invalidExpression cause, by rw [hanswer]; rfl, rfl, by rw [hanswer],
      by rw [hk]; exact ⟨cause, rfl⟩⟩
  | invalid =>
    rw [answerTrimmed_of_invalid c hk] at hanswer
    exact ⟨.invalidExpression .unrecognizable, by rw [hanswer]; rfl, rfl, by rw [hanswer],
      by rw [hk]; exact ⟨_, rfl⟩⟩

end Calculator

/-! ## bytes that are no text -/

/-- bytes that are no text are read with a U+FFFD, which is not at the end of a line -/
theorem replacement_mem_lineText {raw : List UInt8} (h : ∀ text, raw ≠ Utf8.encode text) :
    Utf8.replacement ∈ lineText raw := by
  have hmem : Utf8.replacement ∈ Utf8.decode raw := by
    by_contra hn
    exact h _ (Utf8.encode_decode hn).symm
  obtain ⟨ends, hdecode, hends, -⟩ := decode_eq_lineText_append raw
  have hkept : Utf8.replacement ∉ ends := fun h => absurd (hends _ h) (by decide)
  rw [hdecode] at hmem
  exact (List.mem_append.mp hmem).resolve_right hkept

/-! ## sessions -/

theorem Rejection.newline_not_mem_message {e : Rejection} (h : e.isRecoverable = true) :
    '\n' ∉ e.message.toList := by
  have hnone : ∀ text ∈ ["Unknown command", "Unknown variable", "Invalid identifier",
      "Invalid assignment", "Invalid expression"], '\n' ∉ text.toList := by decide
  exact hnone _ (message_mem h)

/-- a line that is refused is answered with its message, and the session goes on behind it -/
theorem runSession_of_refused {s rest : Source} {raw : List UInt8} (hn : s.next = .line raw rest)
    {c : Calculator} {e : Rejection} (he : c.RefusesByKind (lineText raw) e) (prompt : String) :
    let t := runSession prompt c rest none
    runSession prompt c s none =
      ⟨Utf8.encode (prompt ++ e.message ++ "\n") ++ t.output,
        (c.answer (lineText raw)).2.events ++ t.events, t.ending, t.calculator⟩ := by
  have hstay := lineEnding?_of_isRecoverable he.refused he.recoverable
  rw [runSession_of_line hn hstay, he.unchanged, he.refused, String.append_assoc]
  rfl

namespace Calculator

/-- **A line with a foreign character is refused and harmless.** It is refused as its kind is and
leaves the calculator as it was; a session writes one line for it, the message, and goes on as if
it had not been there. Bytes that are no text are read as such a line. -/
theorem foreign_lines_refused (c : Calculator) :
    (∀ line, HasForeign line → ∃ e, c.RefusesByKind line e ∧
      ((trim line).head? = some '/' → e = .unknownCommand)) ∧
    (∀ raw, (∀ text, raw ≠ Utf8.encode text) →
      Utf8.replacement ∈ lineText raw ∧ HasForeign (lineText raw)) ∧
    ∀ (prompt : String) (s rest : Source) (raw : List UInt8), s.next = .line raw rest →
      HasForeign (lineText raw) →
        ∃ e, c.RefusesByKind (lineText raw) e ∧ '\n' ∉ e.message.toList ∧
          let t := runSession prompt c rest none
          runSession prompt c s none =
            ⟨Utf8.encode (prompt ++ e.message ++ "\n") ++ t.output,
              (c.answer (lineText raw)).2.events ++ t.events, t.ending, t.calculator⟩ := by
  refine ⟨fun line h => ?_, fun raw h => ?_, fun prompt s rest raw hn h => ?_⟩
  · obtain ⟨e, he⟩ := c.refusesByKind h
    refine ⟨e, he, fun hslash => ?_⟩
    have hfits := he.fits
    rwa [LineKind.of_eq_command_iff.mpr hslash] at hfits
  · have hmem := replacement_mem_lineText h
    exact ⟨hmem, _, hmem, isForeign_replacement⟩
  · obtain ⟨e, he⟩ := c.refusesByKind h
    exact ⟨e, he, Rejection.newline_not_mem_message he.recoverable,
      runSession_of_refused hn he prompt⟩

example : ((fresh 20).answer (lineText [0xFF, newline])).2.outcome =
    .error (.invalidExpression .unrecognizable) := by decide +kernel

end Calculator

end DecimalCalculator
