import DecimalCalculator.Proofs.Dispatch
import DecimalCalculator.Proofs.History
import DecimalCalculator.Proofs.Recoverable
import DecimalCalculator.Proofs.Session.Lines
import DecimalCalculator.Proofs.Session.Performance

/-!
# A session, line by line

Only the line `/exit` ends a session (`Calculator.lineEnding?_of_isExit`): no other asks to leave,
and no refusal aborts it (`Calculator.lineEnding?_of_not_isExit`). Up to there it is the exchange
over its lines (`script_of_front`): the prompt, the calculator behind the line, what the line
reports, and its answer. What comes behind is one of two ends, the line `/exit` (`script_of_exit`)
or the end of the source (`script_of_all`). On an output that never fails this gives all that a
session writes as a function of its lines (`runSession_by_lines`), and what one line adds to it
(`runSession_of_line`).
-/

namespace DecimalCalculator

/-! ## the line that ends a session -/

/-- a line that asks to leave -/
def IsExit (line : List Char) : Prop := trim line = "/exit".toList

instance : DecidablePred IsExit := fun line => inferInstanceAs (Decidable (trim line = _))

namespace Calculator

theorem answer_of_isExit {line : List Char} (h : IsExit line) (c : Calculator) :
    c.answer line = (c, ⟨[], .ok .farewell⟩) := by
  unfold answer
  rw [h]
  rfl

/-- of all lines, only a command is answered with a farewell -/
theorem isExit_of_farewell {c : Calculator} {line : List Char}
    (hr : (c.answer line).2.outcome = .ok .farewell) : IsExit line := by
  have hanswered := c.answered line
  rw [hr] at hanswered
  exact hanswered.of_farewell

theorem lineEnding?_of_isExit {line : List Char} (h : IsExit line) (c : Calculator) :
    lineEnding? (c.answer line).2 = some .finished := by
  rw [answer_of_isExit h]
  rfl

/-- a session goes on behind any other line: no refusal aborts it -/
theorem lineEnding?_of_not_isExit {line : List Char} (h : ¬IsExit line) (c : Calculator) :
    lineEnding? (c.answer line).2 = none := by
  cases hr : (c.answer line).2.outcome with
  | error e => exact lineEnding?_of_isRecoverable hr (isRecoverable_of_answer hr)
  | ok reply =>
    refine lineEnding?_of_ok hr ?_
    rintro rfl
    exact h (isExit_of_farewell hr)

/-! ## the exchange -/

/-- the answers to lines, one line after the other -/
def answers (c : Calculator) : List (List Char) → List (Reported Reply)
  | [] => []
  | line :: rest => (c.answer line).2 :: answers (c.answer line).1 rest

theorem after_cons (c : Calculator) (line : List Char) (rest : List (List Char)) :
    c.after (line :: rest) = (c.answer line).1.after rest := rfl

end Calculator

/-- what a line is answered with, as text -/
def answerText : Except Rejection Reply → String
  | .ok .silent => ""
  | .ok (.value v) => v.plain ++ "\n"
  | .ok (.lines texts) => String.join (texts.map (· ++ "\n"))
  | .ok .farewell => "Bye!\n"
  | .error e => e.message ++ "\n"

/-- each answer behind a prompt -/
def dialogue (prompt : String) (rs : List (Reported Reply)) : String :=
  String.join (rs.map fun r => prompt ++ answerText r.outcome)

/-- what a session does over lines that it goes on from -/
def exchange (prompt : String) (c : Calculator) : List (List Char) → List Action
  | [] => []
  | line :: rest =>
    .write prompt :: .adopt (c.answer line).1 :: answerActions (c.answer line).2 ++
      exchange prompt (c.answer line).1 rest

theorem dialogue_cons (prompt : String) (r : Reported Reply) (rs : List (Reported Reply)) :
    dialogue prompt (r :: rs) = prompt ++ answerText r.outcome ++ dialogue prompt rs :=
  String.join_cons

theorem encode_join (texts : List String) :
    Utf8.encode (String.join texts) = texts.flatMap Utf8.encode := by
  unfold Utf8.encode
  rw [String.toList_join, List.flatMap_assoc]

/-- the text of an answer is its lines, each with a newline -/
theorem answerText_eq_join {o : Except Rejection Reply}
    (h : ∀ e, o = .error e → e.isRecoverable = true) :
    answerText o = String.join ((answerLines o).map (· ++ "\n")) := by
  have hone (text : String) : String.join [text] = text := by simp [String.join_cons]
  cases o with
  | error e =>
    rw [answerLines_of_isRecoverable (h e rfl)]
    exact (hone _).symm
  | ok reply =>
    cases reply with
    | silent => rfl
    | value v => exact (hone _).symm
    | lines texts => rfl
    | farewell => rfl

section
variable (r : Reported Reply)

theorem written_answerActions (h : ∀ e, r.outcome = .error e → e.isRecoverable = true) :
    written (answerActions r) = Utf8.encode (answerText r.outcome) := by
  have hlog : written (r.events.map .log) = [] := by simp [written, Action.written]
  have hlines : written ((answerLines r.outcome).map fun text => .write (text ++ "\n")) =
      Utf8.encode (answerText r.outcome) := by
    rw [answerText_eq_join h, encode_join]
    simp [written, List.flatMap_map, Action.written]
  unfold answerActions
  rw [written_append, hlog, hlines, List.nil_append]

theorem logged_answerActions : logged (answerActions r) = r.events := by
  have hlog : logged (r.events.map .log) = r.events := by
    simp [logged, List.flatMap_map, Action.logged]
  have hlines :
      logged ((answerLines r.outcome).map fun text => .write (text ++ "\n")) = [] := by
    simp [logged, Action.logged]
  unfold answerActions
  rw [logged_append, hlog, hlines, List.append_nil]

theorem adopted_answerActions (c : Calculator) : adopted c (answerActions r) = c := by
  refine adopted_of_forall fun a ha => ?_
  rcases List.mem_append.mp ha with h | h
  · obtain ⟨e, -, rfl⟩ := List.mem_map.mp h
    rfl
  · obtain ⟨text, -, rfl⟩ := List.mem_map.mp h
    rfl

end

section
variable (prompt : String) (c : Calculator) (lines : List (List Char))

theorem written_exchange :
    written (exchange prompt c lines) = Utf8.encode (dialogue prompt (c.answers lines)) := by
  induction lines generalizing c with
  | nil => rfl
  | cons line rest ih =>
    show Utf8.encode prompt ++ written (answerActions (c.answer line).2 ++ exchange prompt _ rest) = _
    rw [written_append, written_answerActions _ fun _ => Calculator.isRecoverable_of_answer, ih,
      Calculator.answers, dialogue_cons, Utf8.encode_append, Utf8.encode_append, List.append_assoc]

theorem logged_exchange :
    logged (exchange prompt c lines) = (c.answers lines).flatMap Reported.events := by
  induction lines generalizing c with
  | nil => rfl
  | cons line rest ih =>
    show logged (answerActions (c.answer line).2 ++ exchange prompt _ rest) = _
    rw [logged_append, logged_answerActions, ih, Calculator.answers, List.flatMap_cons]

theorem adopted_exchange : adopted c (exchange prompt c lines) = c.after lines := by
  induction lines generalizing c with
  | nil => rfl
  | cons line rest ih =>
    show adopted (c.answer line).1 (answerActions (c.answer line).2 ++ exchange prompt _ rest) = _
    rw [adopted_append, adopted_answerActions, ih, Calculator.after_cons]

end

/-! ## the script -/

section
variable {s : Source}

/-- the lines in front of the end are exchanged, and the session goes on behind them -/
theorem script_of_front {front : List (List UInt8)} (hfront : ∀ raw ∈ front, ¬IsExit (lineText raw))
    {back : List (List UInt8)} (hs : s.lines = front ++ back) (prompt : String) (c : Calculator) :
    ∃ rest : Source, rest.lines = back ∧ rest.fails = s.fails ∧
      let remaining := script prompt (c.after (front.map lineText)) rest
      script prompt c s =
        ⟨exchange prompt c (front.map lineText) ++ remaining.actions, remaining.ending⟩ := by
  -- the source and the calculator change with each line, so both are general
  induction front generalizing s c with
  | nil => exact ⟨s, hs, rfl, rfl⟩
  | cons raw front ih =>
    obtain ⟨hraw, hfront⟩ := List.forall_mem_cons.mp hfront
    obtain ⟨next, hn, hl, hf⟩ := Source.next_of_lines_cons hs
    obtain ⟨rest, hback, hfails, hscript⟩ := ih hfront hl (c.answer (lineText raw)).1
    refine ⟨rest, hback, hfails.trans hf, ?_⟩
    rw [script_of_line hn (Calculator.lineEnding?_of_not_isExit hraw c)]
    simp only [hscript, List.map_cons, exchange, Calculator.after_cons, List.cons_append,
      List.append_assoc]

/-- what a session does on a line that asks to leave -/
def leaving (prompt : String) (c : Calculator) : List Action :=
  [.write prompt, .adopt c, .write "Bye!\n"]

/-- what a session does when no line is left -/
def closing (prompt : String) (fails : Bool) : Script :=
  if fails then ⟨[.write prompt], .readFailed⟩
  else ⟨[.write prompt, .log .endOfInput], .finished⟩

theorem written_leaving (prompt : String) (c : Calculator) :
    written (leaving prompt c) = Utf8.encode (prompt ++ "Bye!\n") := by
  rw [Utf8.encode_append]
  rfl

theorem logged_leaving (prompt : String) (c : Calculator) : logged (leaving prompt c) = [] := rfl

theorem written_closing (prompt : String) (fails : Bool) :
    written (closing prompt fails).actions = Utf8.encode prompt := by
  cases fails with
  | true => exact List.append_nil _
  | false => exact List.append_nil _

theorem script_of_nil (hs : s.lines = []) (prompt : String) (c : Calculator) :
    script prompt c s = closing prompt s.fails := by
  have hn := Source.next_of_lines_nil hs
  unfold closing
  cases hf : s.fails with
  | true =>
    rw [hf] at hn
    exact script_of_failed hn prompt c
  | false =>
    rw [hf] at hn
    exact script_of_ended hn prompt c

theorem script_of_all (h : ∀ raw ∈ s.lines, ¬IsExit (lineText raw)) (prompt : String)
    (c : Calculator) :
    script prompt c s =
      ⟨exchange prompt c (s.lines.map lineText) ++ (closing prompt s.fails).actions,
        (closing prompt s.fails).ending⟩ := by
  obtain ⟨rest, hl, hf, hscript⟩ := script_of_front h (List.append_nil _).symm prompt c
  rw [hscript, script_of_nil hl, hf]

theorem script_of_exit {front back : List (List UInt8)} {last : List UInt8}
    (hfront : ∀ raw ∈ front, ¬IsExit (lineText raw)) (hlast : IsExit (lineText last))
    (hs : s.lines = front ++ last :: back) (prompt : String) (c : Calculator) :
    script prompt c s =
      ⟨exchange prompt c (front.map lineText) ++ leaving prompt (c.after (front.map lineText)),
        .finished⟩ := by
  obtain ⟨rest, hl, -, hscript⟩ := script_of_front hfront hs prompt c
  obtain ⟨behind, hn, -, -⟩ := Source.next_of_lines_cons hl
  rw [hscript, script_of_ending hn (Calculator.lineEnding?_of_isExit hlast _),
    Calculator.answer_of_isExit hlast]
  rfl

end

/-- Either no line asks to leave, or one of them is the first that does. -/
theorem no_exit_or_first_exit (raws : List (List UInt8)) :
    (∀ raw ∈ raws, ¬IsExit (lineText raw)) ∨
      ∃ front last back, raws = front ++ last :: back ∧
        (∀ raw ∈ front, ¬IsExit (lineText raw)) ∧ IsExit (lineText last) := by
  cases h : raws.find? fun raw => decide (IsExit (lineText raw)) with
  | none =>
    refine .inl fun raw hraw he => List.find?_eq_none.mp h raw hraw ?_
    exact decide_eq_true he
  | some last =>
    obtain ⟨hlast, front, back, hraws, hfront⟩ := List.find?_eq_some_iff_append.mp h
    refine .inr ⟨front, last, back, hraws, fun raw hraw => ?_, of_decide_eq_true hlast⟩
    simpa using hfront raw hraw

/-! ## the whole session -/

section
variable {s : Source}

theorem runSession_of_all (h : ∀ raw ∈ s.lines, ¬IsExit (lineText raw)) (prompt : String)
    (c : Calculator) :
    let lines := s.lines.map lineText
    runSession prompt c s none =
      ⟨Utf8.encode (dialogue prompt (c.answers lines) ++ prompt),
        (c.answers lines).flatMap Reported.events ++ if s.fails then [] else [.endOfInput],
        if s.fails then .readFailed else .finished, c.after lines⟩ := by
  intro lines
  unfold runSession
  rw [script_of_all h, perform_unlimited, written_append, logged_append, adopted_append,
    written_exchange, logged_exchange, adopted_exchange, written_closing, Utf8.encode_append]
  cases s.fails with
  | true => rfl
  | false => rfl

theorem runSession_of_exit {front back : List (List UInt8)} {last : List UInt8}
    (hfront : ∀ raw ∈ front, ¬IsExit (lineText raw)) (hlast : IsExit (lineText last))
    (hs : s.lines = front ++ last :: back) (prompt : String) (c : Calculator) :
    let lines := front.map lineText
    runSession prompt c s none =
      ⟨Utf8.encode (dialogue prompt (c.answers lines) ++ prompt ++ "Bye!\n"),
        (c.answers lines).flatMap Reported.events, .finished, c.after lines⟩ := by
  intro lines
  unfold runSession
  rw [script_of_exit hfront hlast hs, perform_unlimited, written_append, logged_append,
    adopted_append, written_exchange, logged_exchange, adopted_exchange, written_leaving,
    ← Utf8.encode_append, ← String.append_assoc]
  simp only [logged_leaving, List.append_nil]
  rfl

/-- behind a line that does not ask to leave, the session goes on with the calculator of the line -/
theorem runSession_of_line {rest : Source} {raw : List UInt8} (hn : s.next = .line raw rest)
    {c : Calculator} (hstay : lineEnding? (c.answer (lineText raw)).2 = none) (prompt : String) :
    let r := c.answer (lineText raw)
    let t := runSession prompt r.1 rest none
    runSession prompt c s none =
      ⟨Utf8.encode (prompt ++ answerText r.2.outcome) ++ t.output, r.2.events ++ t.events,
        t.ending, t.calculator⟩ := by
  intro r t
  have hscript : script prompt c s =
      ⟨.write prompt :: .adopt r.1 :: answerActions r.2 ++ (script prompt r.1 rest).actions,
        (script prompt r.1 rest).ending⟩ := script_of_line hn hstay prompt
  have ht : t = _ := perform_unlimited (script prompt r.1 rest).ending r.1 _
  have hwritten : written (.write prompt :: .adopt r.1 :: answerActions r.2) =
      Utf8.encode (prompt ++ answerText r.2.outcome) := by
    rw [Utf8.encode_append, ← written_answerActions _ fun _ => Calculator.isRecoverable_of_answer]
    rfl
  have hlogged : logged (.write prompt :: .adopt r.1 :: answerActions r.2) = r.2.events :=
    logged_answerActions r.2
  have hadopted : adopted c (.write prompt :: .adopt r.1 :: answerActions r.2) = r.1 :=
    adopted_answerActions r.2 r.1
  unfold runSession
  rw [hscript, perform_unlimited, written_append, logged_append, adopted_append, hwritten,
    hlogged, hadopted, ht]

end

/-- A session writes, for each line in order, the prompt and the answer of the calculator that the
lines in front of it left behind. It ends at the first line `/exit`, with a farewell, or else at
the end of the input, with one more prompt. Nothing else ends it: whatever a line is refused for,
the refusal is recoverable, and it is answered with one of five messages. -/
theorem runSession_by_lines (prompt : String) (c : Calculator) (bytes : List UInt8) :
    let lines := (rawLines bytes).map lineText
    let t := runSession prompt c ⟨bytes, false⟩ none
    (t.ending = .finished ∧
      (((∀ line ∈ lines, ¬IsExit line) ∧
          t.output = Utf8.encode (dialogue prompt (c.answers lines) ++ prompt) ∧
          t.calculator = c.after lines) ∨
        ∃ front last back, lines = front ++ last :: back ∧
          (∀ line ∈ front, ¬IsExit line) ∧ IsExit last ∧
          t.output = Utf8.encode (dialogue prompt (c.answers front) ++ prompt ++ "Bye!\n") ∧
          t.calculator = c.after front)) ∧
    ∀ (c : Calculator) (line : List Char) (e : Rejection), (c.answer line).2.outcome = .error e →
      e.isRecoverable = true ∧
        e.message ∈ ["Unknown command", "Unknown variable", "Invalid identifier",
          "Invalid assignment", "Invalid expression"] := by
  intro lines t
  refine ⟨?_, fun c line e he => ⟨Calculator.isRecoverable_of_answer he,
    Rejection.message_mem (Calculator.isRecoverable_of_answer he)⟩⟩
  rcases no_exit_or_first_exit (rawLines bytes) with hall | ⟨front, last, back, hraws, hfront, hlast⟩
  · have ht : t = _ := runSession_of_all (s := ⟨bytes, false⟩) hall prompt c
    rw [ht]
    exact ⟨rfl, .inl ⟨List.forall_mem_map.mpr hall, rfl, rfl⟩⟩
  · have ht : t = _ := runSession_of_exit (s := ⟨bytes, false⟩) hfront hlast hraws prompt c
    have hlines : lines = front.map lineText ++ lineText last :: back.map lineText := by
      simp only [lines, hraws, List.map_append, List.map_cons]
    rw [ht]
    exact ⟨rfl, .inr ⟨_, _, _, hlines, List.forall_mem_map.mpr hfront, hlast, rfl, rfl⟩⟩

end DecimalCalculator
