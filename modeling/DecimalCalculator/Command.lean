import DecimalCalculator.Rejection

/-!
# Commands

A command is written exactly as `text` gives it.
-/

namespace DecimalCalculator

inductive Command where
  | exit
  | help
  | variables
  deriving DecidableEq

namespace Command

def text : Command → String
  | .exit => "/exit"
  | .help => "/help"
  | .variables => "/variables"

def all : List Command := [.exit, .help, .variables]

def ofText (line : List Char) : Except Rejection Command :=
  match all.find? fun c => c.text.toList == line with
  | some c => .ok c
  | none => .error .unknownCommand

theorem ofText_text (c : Command) : ofText c.text.toList = .ok c := by
  cases c <;> rfl

theorem ofText_eq_ok {line : List Char} {c : Command} (h : ofText line = .ok c) :
    line = c.text.toList := by
  unfold ofText at h
  split at h
  · next hf =>
    cases h
    have hc := List.find?_some (p := fun c : Command => c.text.toList == line) hf
    exact (eq_of_beq hc).symm
  · cases h

theorem ofText_eq_error {line : List Char} {e : Rejection} (h : ofText line = .error e) :
    e = .unknownCommand ∧ ∀ c : Command, line ≠ c.text.toList := by
  refine ⟨?_, fun c hc => ?_⟩
  · unfold ofText at h
    split at h
    · cases h
    · cases h
      rfl
  · rw [hc, ofText_text] at h
    cases h

end Command

/-- the help screen, line by line -/
def helpLines : List String :=
  ["Smart Calculator Help:",
    "",
    "The calculator supports the basic arithmetic operations",
    "add, subtract, multiply, divide and power, written as + - * / ^.",
    "Parentheses group sub-expressions:",
    "  3 + 4 * 12 / (6 - 2) ^ 2",
    "",
    "Results are exact decimals. Division that does not terminate is",
    "rounded to a fixed number of fractional digits (see --scale).",
    "",
    "Variables hold numbers and are made of letters only:",
    "  a = 5",
    "  b = a",
    "Enter a variable's name to display its value.",
    "",
    "Commands:",
    "  /help       display this help screen",
    "  /variables  display defined variables",
    "  /exit       exit the calculator"]

def farewell : String := "Bye!"

end DecimalCalculator
