import Mathlib
import DecimalCalculator.Session.Script

/-!
# Actions on an output

On an output without a limit every action is done (`perform_unlimited`). On an output with room
for `n` bytes nothing changes as long as all that is written fits (`perform_of_le`). If it does
not fit, the actions in front of one of them are done, that one fills the output, and the ones
behind it are not begun (`perform_of_lt`).
-/

namespace DecimalCalculator

/-! ## what actions do -/

def Action.written : Action → List UInt8
  | .write text => Utf8.encode text
  | _ => []

def Action.logged : Action → List Event
  | .log e => [e]
  | _ => []

def Action.adopted (c : Calculator) : Action → Calculator
  | .adopt after => after
  | _ => c

def written (actions : List Action) : List UInt8 := actions.flatMap Action.written
def logged (actions : List Action) : List Event := actions.flatMap Action.logged

/-- the calculator behind actions that were begun by `c` -/
def adopted (c : Calculator) (actions : List Action) : Calculator :=
  actions.foldl Action.adopted c

theorem written_cons (a : Action) (rest : List Action) :
    written (a :: rest) = a.written ++ written rest := rfl
theorem written_append (a b : List Action) : written (a ++ b) = written a ++ written b :=
  List.flatMap_append
theorem logged_append (a b : List Action) : logged (a ++ b) = logged a ++ logged b :=
  List.flatMap_append
theorem adopted_cons (c : Calculator) (a : Action) (rest : List Action) :
    adopted c (a :: rest) = adopted (a.adopted c) rest := rfl
theorem adopted_append (c : Calculator) (a b : List Action) :
    adopted c (a ++ b) = adopted (adopted c a) b := List.foldl_append

theorem adopted_of_forall {c : Calculator} {actions : List Action}
    (h : ∀ a ∈ actions, a.adopted c = c) : adopted c actions = c := by
  induction actions with
  | nil => rfl
  | cons a rest ih =>
    obtain ⟨ha, hrest⟩ := List.forall_mem_cons.mp h
    rw [adopted_cons, ha, ih hrest]

/-! ## without a limit -/

theorem perform_unlimited (ending : Ending) (c : Calculator) (actions : List Action) :
    perform none ending c actions = ⟨written actions, logged actions, ending, adopted c actions⟩ := by
  induction actions generalizing c with
  | nil => rfl
  | cons a rest ih =>
    cases a with
    | write text =>
      rw [perform_write_unlimited, ih]
      rfl
    | log e =>
      rw [perform_log, ih]
      rfl
    | adopt after =>
      rw [perform_adopt, ih]
      rfl

/-! ## with a limit -/

theorem perform_of_le {n : Nat} {actions : List Action} (h : (written actions).length ≤ n)
    (ending : Ending) (c : Calculator) :
    perform (some n) ending c actions = perform none ending c actions := by
  induction actions generalizing n c with
  | nil => rfl
  | cons a rest ih =>
    cases a with
    | write text =>
      rw [written_cons, List.length_append] at h
      change (Utf8.encode text).length + (written rest).length ≤ n at h
      rw [perform_write_of_le (by omega), perform_write_unlimited, ih (by omega)]
    | log e => rw [perform_log, perform_log, ih h]
    | adopt after => rw [perform_adopt, perform_adopt, ih h]

theorem perform_of_lt {n : Nat} {actions : List Action} (h : n < (written actions).length)
    (ending : Ending) (c : Calculator) :
    ∃ front back, actions = front ++ back ∧
      perform (some n) ending c actions =
        ⟨(written actions).take n, logged front, .writeFailed, adopted c front⟩ := by
  induction actions generalizing n c with
  | nil => exact absurd h (Nat.not_lt_zero n)
  | cons a rest ih =>
    cases a with
    | write text =>
      by_cases hfit : (Utf8.encode text).length ≤ n
      · -- the text fits, and what is behind it has less room
        have hrest : n - (Utf8.encode text).length < (written rest).length := by
          rw [written_cons, List.length_append] at h
          change n < (Utf8.encode text).length + (written rest).length at h
          omega
        obtain ⟨front, back, rfl, hp⟩ := ih hrest c
        refine ⟨.write text :: front, back, rfl, ?_⟩
        rw [perform_write_of_le hfit, hp, written_cons, List.take_append,
          List.take_of_length_le (show (Action.write text).written.length ≤ n from hfit)]
        rfl
      · have hlt : n < (Utf8.encode text).length := Nat.lt_of_not_le hfit
        refine ⟨[], .write text :: rest, rfl, ?_⟩
        rw [perform_write_of_lt hlt, written_cons,
          List.take_append_of_le_length (show n ≤ (Action.write text).written.length from hlt.le)]
        rfl
    | log e =>
      obtain ⟨front, back, rfl, hp⟩ := ih h c
      refine ⟨.log e :: front, back, rfl, ?_⟩
      rw [perform_log, hp]
      rfl
    | adopt after =>
      obtain ⟨front, back, rfl, hp⟩ := ih h after
      refine ⟨.adopt after :: front, back, rfl, ?_⟩
      rw [perform_adopt, hp]
      rfl

end DecimalCalculator
