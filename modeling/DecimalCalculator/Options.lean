import DecimalCalculator.Calculator

/-!
# Options of the command line

`--scale N`, `--prompt TEXT` and `--verbose`, with the short forms `-s`, `-p` and `-v`; `--help`
and `--version` end the reading of options at once. Short options may be joined (`-vs4`), and a
value may be attached (`--scale=4`, `-s4`, `-s=4`) or be the next argument, unless that begins with
an option.

A value in the next argument is looked at only when the option behind it is reached, or the end of
the line: until then the option waits (`Waiting`). So an unknown argument behind it is reported
first.
-/

namespace DecimalCalculator

structure Options where
  scale : Nat
  prompt : String
  verbosity : Nat
  deriving DecidableEq

/-- what ends the reading of options -/
inductive Stop where
  | help
  | version
  | unknownArgument
  | missingValue
  | unexpectedValue
  | badValue
  | repeated
  deriving DecidableEq

namespace Stop

/-- only a request for help or for the version is a success -/
def exitCode : Stop → Nat
  | .help | .version => 0
  | _ => 2

end Stop

/-! ## options -/

/-- an option that takes a value -/
inductive Setting where
  | scale
  | prompt
  deriving DecidableEq

/-- an option without a value -/
inductive Switch where
  | verbose
  | help
  | version
  deriving DecidableEq

inductive OptionKey where
  | setting (s : Setting)
  | switch (s : Switch)
  deriving DecidableEq

namespace OptionKey

def ofShort? : Char → Option OptionKey
  | 's' => some (.setting .scale)
  | 'p' => some (.setting .prompt)
  | 'v' => some (.switch .verbose)
  | 'h' => some (.switch .help)
  | 'V' => some (.switch .version)
  | _ => none

def ofLong? (name : List Char) : Option OptionKey :=
  if name = "scale".toList then some (.setting .scale)
  else if name = "prompt".toList then some (.setting .prompt)
  else if name = "verbose".toList then some (.switch .verbose)
  else if name = "help".toList then some (.switch .help)
  else if name = "version".toList then some (.switch .version)
  else none

end OptionKey

/-! ## values -/

/-- the largest number of places that can be asked for -/
def maxScale : Nat := 10000

/-- an integer with an optional sign, if it is a scale that is allowed -/
def scaleOf? (value : List Char) : Option Nat :=
  let digits := Decimal.dropSign value
  let n := Nat.ofDigitChars 10 digits 0
  if Decimal.isDigits digits ∧ n ≤ maxScale ∧ (value.head? = some '-' → n = 0) then some n
  else none

/-! ## the state between two arguments -/

/-- a setting whose value is the next argument, and that argument once it is read -/
structure Waiting where
  setting : Setting
  value : Option (List Char)

/-- what the arguments so far have given -/
structure OptionState where
  scale : Option Nat
  prompt : Option (List Char)
  verbosity : Nat
  waiting : Option Waiting

namespace OptionState

def initial : OptionState := ⟨none, none, 0, none⟩

/-- a setting gets its value; it may have only one -/
def assign (s : OptionState) : Setting → List Char → Except Stop OptionState
  | .scale, value =>
    if s.scale.isSome then .error .repeated
    else match scaleOf? value with
      | some n => .ok { s with scale := some n }
      | none => .error .badValue
  | .prompt, value =>
    if s.prompt.isSome then .error .repeated else .ok { s with prompt := some value }

/-- the setting that waits gets its value now -/
def settle (s : OptionState) : Except Stop OptionState :=
  match s.waiting with
  | none => .ok s
  | some ⟨_, none⟩ => .error .missingValue
  | some ⟨setting, some value⟩ => assign { s with waiting := none } setting value

/-- a count of times does not go beyond a byte -/
def maxVerbosity : Nat := 255

/-- an option without a value takes effect -/
def apply (s : OptionState) : Switch → Except Stop OptionState
  | .verbose => s.settle.map fun s => { s with verbosity := min (s.verbosity + 1) maxVerbosity }
  | .help => s.settle >>= fun _ => .error .help
  | .version => s.settle >>= fun _ => .error .version

/-- a setting with an attached value, or one that waits for the next argument -/
def set (s : OptionState) (setting : Setting) : Option (List Char) → Except Stop OptionState
  | some value => s.settle >>= fun s => s.assign setting value
  | none => s.settle.map fun s => { s with waiting := some ⟨setting, none⟩ }

/-! ## arguments -/

/-- short options joined in one argument -/
def readShort (s : OptionState) : List Char → Except Stop OptionState
  | [] => .ok s
  | c :: rest =>
    match OptionKey.ofShort? c with
    | none => .error .unknownArgument
    | some (.switch w) => s.apply w >>= fun s => s.readShort rest
    | some (.setting k) =>
      match rest with
      | [] => s.set k none
      | '=' :: value => s.set k (some value)
      | value => s.set k (some value)

/-- a long option, with a value behind its first `=` -/
def readLong (s : OptionState) (text : List Char) : Except Stop OptionState :=
  let name := text.takeWhile (· != '=')
  let value := if text.contains '=' then some (text.dropWhile (· != '=')).tail else none
  match OptionKey.ofLong? name, value with
  | none, _ => .error .unknownArgument
  | some (.setting k), value => s.set k value
  | some (.switch w), none => s.apply w
  | some (.switch _), some _ => .error .unexpectedValue

/-- an argument that is no option: it can only be the value of a setting that waits -/
def readPlain (s : OptionState) (text : List Char) : Except Stop OptionState :=
  match s.waiting with
  | some ⟨setting, none⟩ => .ok { s with waiting := some ⟨setting, some text⟩ }
  | _ => .error .unknownArgument

/-- one argument -/
def read (s : OptionState) (argument : List Char) : Except Stop OptionState :=
  match argument with
  | '-' :: '-' :: text => s.readLong text
  | '-' :: c :: text => s.readShort (c :: text)
  | text => s.readPlain text

/-- all arguments; `--` may only be the last one -/
def readAll (s : OptionState) : List (List Char) → Except Stop OptionState
  | [] => s.settle
  | ['-', '-'] :: rest => if rest.isEmpty then s.settle else .error .unknownArgument
  | argument :: rest => s.read argument >>= fun s => s.readAll rest

/-- the options, with the defaults of those that were not given -/
def finish (s : OptionState) : Options :=
  ⟨s.scale.getD defaultScale, String.ofList (s.prompt.getD []), s.verbosity⟩

end OptionState

def Options.ofArguments (arguments : List String) : Except Stop Options :=
  (OptionState.initial.readAll (arguments.map String.toList)).map OptionState.finish

end DecimalCalculator
