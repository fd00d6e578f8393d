import DecimalCalculator.Calculator
import DecimalCalculator.Session.Source

/-!
# Sessions

A session prompts for a line, answers it, and goes on until a line asks to leave or the source
ends. A refusal is an answer too if it is recoverable; any other aborts the session, as a failure to
read does. What a session does is a list of actions (`Script`): texts that are written, events that
are logged and the calculators that lines leave behind, in order. Writing may fail, so a script is
performed on an output (`Transcript`), and what is left of it after the failure is not done.
-/

namespace DecimalCalculator

/-! ## actions -/

/-- one step of a session -/
inductive Action where
  | write (text : String)
  | log (event : Event)
  | adopt (c : Calculator)

/-- how a session comes to its end -/
inductive Ending where
  | finished
  | aborted (e : Rejection)
  deriving DecidableEq

def Ending.readFailed : Ending := .aborted (.io "read failed")
def Ending.writeFailed : Ending := .aborted (.io "write failed")

/-- the steps of a session, and how it ends if all of them can be done -/
structure Script where
  actions : List Action
  ending : Ending

/-! ## one line -/

/-- the lines that answer a line: those of a reply, or the message of a recoverable refusal -/
def answerLines : Except Rejection Reply → List String
  | .ok reply => reply.text
  | .error e => if e.isRecoverable then [e.message] else []

theorem answerLines_of_isRecoverable {e : Rejection} (h : e.isRecoverable = true) :
    answerLines (.error e) = [e.message] := if_pos h

/-- the events of a line, and then its answer, each line with a newline -/
def answerActions (r : Reported Reply) : List Action :=
  r.events.map .log ++ (answerLines r.outcome).map fun text => .write (text ++ "\n")

/-- how a line ends the session, if it does: it asks to leave, or what went wrong with it is not
recoverable -/
def lineEnding? (r : Reported Reply) : Option Ending :=
  match r.outcome with
  | .ok .farewell => some .finished
  | .ok _ => none
  | .error e => if e.isRecoverable then none else some (.aborted e)

theorem lineEnding?_of_ok {r : Reported Reply} {reply : Reply} (h : r.outcome = .ok reply)
    (hstay : reply ≠ .farewell) : lineEnding? r = none := by
  unfold lineEnding?
  rw [h]
  cases reply with
  | farewell => exact absurd rfl hstay
  | silent | value v | lines texts => rfl

theorem lineEnding?_of_isRecoverable {r : Reported Reply} {e : Rejection}
    (h : r.outcome = .error e) (he : e.isRecoverable = true) : lineEnding? r = none := by
  unfold lineEnding?
  rw [h]
  exact if_pos he

/-! ## the loop -/

/-- the script of the session that is still ahead -/
def script (prompt : String) (c : Calculator) (source : Source) : Script :=
  match _h : source.next with
  | .failed => ⟨[.write prompt], .readFailed⟩
  | .ended => ⟨[.write prompt, .log .endOfInput], .finished⟩
  | .line raw rest =>
    let (after, r) := c.answer (lineText raw)
    let actions := .write prompt :: .adopt after :: answerActions r
    match lineEnding? r with
    | some ending => ⟨actions, ending⟩
    | none =>
      let remaining := script prompt after rest
      ⟨actions ++ remaining.actions, remaining.ending⟩
termination_by source.bytes.length
decreasing_by exact Source.length_of_next _h

theorem script_of_failed {source : Source} (h : source.next = .failed) (prompt : String)
    (c : Calculator) : script prompt c source = ⟨[.write prompt], .readFailed⟩ := by
  rw [script]
  split <;> simp_all

theorem script_of_ended {source : Source} (h : source.next = .ended) (prompt : String)
    (c : Calculator) : script prompt c source = ⟨[.write prompt, .log .endOfInput], .finished⟩ := by
  rw [script]
  split <;> simp_all

section
variable {source rest : Source} {raw : List UInt8} (h : source.next = .line raw rest)
include h

/-- a line that ends the session is its last one -/
theorem script_of_ending {c : Calculator} {ending : Ending}
    (he : lineEnding? (c.answer (lineText raw)).2 = some ending) (prompt : String) :
    script prompt c source =
      ⟨.write prompt :: .adopt (c.answer (lineText raw)).1 ::
        answerActions (c.answer (lineText raw)).2, ending⟩ := by
  rw [script]
  split <;> simp_all

theorem script_of_line {c : Calculator} (he : lineEnding? (c.answer (lineText raw)).2 = none)
    (prompt : String) :
    script prompt c source =
      let after := (c.answer (lineText raw)).1
      let remaining := script prompt after rest
      ⟨.write prompt :: .adopt after :: answerActions (c.answer (lineText raw)).2 ++
        remaining.actions, remaining.ending⟩ := by
  rw [script]
  split <;> simp_all

end

/-! ## performing a script -/

/-- what a session wrote and logged, how it ended, and the calculator that it left behind -/
structure Transcript where
  output : List UInt8
  events : List Event
  ending : Ending
  calculator : Calculator

/-- The actions, begun by a calculator, on an output that has `room` bytes left, or no limit. A text
that does not fit is written as far as it fits. -/
def perform (room : Option Nat) (ending : Ending) (c : Calculator) : List Action → Transcript
  | [] => ⟨[], [], ending, c⟩
  | .log e :: rest =>
    let t := perform room ending c rest
    { t with events := e :: t.events }
  | .adopt after :: rest => perform room ending after rest
  | .write text :: rest =>
    let bytes := Utf8.encode text
    match room with
    | none =>
      let t := perform none ending c rest
      { t with output := bytes ++ t.output }
    | some n =>
      if bytes.length ≤ n then
        let t := perform (some (n - bytes.length)) ending c rest
        { t with output := bytes ++ t.output }
      else ⟨bytes.take n, [], .writeFailed, c⟩

/-- a whole session -/
def runSession (prompt : String) (c : Calculator) (source : Source) (room : Option Nat) :
    Transcript :=
  let s := script prompt c source
  perform room s.ending c s.actions

theorem perform_nil (room : Option Nat) (ending : Ending) (c : Calculator) :
    perform room ending c [] = ⟨[], [], ending, c⟩ := rfl

theorem perform_log (room : Option Nat) (ending : Ending) (c : Calculator) (e : Event)
    (rest : List Action) :
    perform room ending c (.log e :: rest) =
      let t := perform room ending c rest
      { t with events := e :: t.events } := rfl

theorem perform_adopt (room : Option Nat) (ending : Ending) (c after : Calculator)
    (rest : List Action) :
    perform room ending c (.adopt after :: rest) = perform room ending after rest := rfl

theorem perform_write_unlimited (ending : Ending) (c : Calculator) (text : String)
    (rest : List Action) :
    perform none ending c (.write text :: rest) =
      let t := perform none ending c rest
      { t with output := Utf8.encode text ++ t.output } := rfl

theorem perform_write_of_le {n : Nat} {text : String} (h : (Utf8.encode text).length ≤ n)
    (ending : Ending) (c : Calculator) (rest : List Action) :
    perform (some n) ending c (.write text :: rest) =
      let t := perform (some (n - (Utf8.encode text).length)) ending c rest
      { t with output := Utf8.encode text ++ t.output } := if_pos h

theorem perform_write_of_lt {n : Nat} {text : String} (h : n < (Utf8.encode text).length)
    (ending : Ending) (c : Calculator) (rest : List Action) :
    perform (some n) ending c (.write text :: rest) =
      ⟨(Utf8.encode text).take n, [], .writeFailed, c⟩ := if_neg (Nat.not_le.mpr h)

end DecimalCalculator
