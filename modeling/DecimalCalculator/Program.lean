import DecimalCalculator.Options
import DecimalCalculator.Session.Script

/-!
# The program

The arguments give the options of one session on the standard input. An argument that is refused
ends the program before anything is read or written. The standard error has the log, each event
without the time at which it happened, and the failure that a session ended with. The words in which
an argument is refused are left out.
-/

namespace DecimalCalculator

def versionLine : String := "smart_calc 0.1.0"

/-- what `--help` writes -/
def usageLines : List String :=
  ["An interactive calculator for exact decimal arithmetic with variables",
    "",
    "Usage: smart_calc [OPTIONS]",
    "",
    "Options:",
    "  -s, --scale <SCALE>    Fractional digits kept when a quotient does not terminate [default: 20]",
    "  -p, --prompt <PROMPT>  Text written before each line is read [default: \"\"]",
    "  -v, --verbose...       Log more to stderr; repeat for more detail",
    "  -h, --help             Print help",
    "  -V, --version          Print version"]

/-- the lines that are written when the reading of options stops -/
def Stop.lines : Stop → List String
  | .help => usageLines
  | .version => [versionLine]
  | _ => []

namespace Ending

def exitCode : Ending → Nat
  | .finished => 0
  | .aborted _ => 1

/-- what is logged of it -/
def event : Ending → Event
  | .finished => .ended
  | .aborted e => .failed e

/-- what is told of it besides -/
def complaint : Ending → List String
  | .finished => []
  | .aborted e => ["Error, " ++ e.message]

end Ending

namespace Options

def level (options : Options) : Level := .ofVerbosity options.verbosity

/-- the lines on the standard error, from the events of a session and its end -/
def errorLines (options : Options) (events : List Event) (ending : Ending) : List String :=
  logLines options.level (.started options.scale :: events ++ [ending.event]) ++ ending.complaint

end Options

/-- what the program leaves behind -/
structure Outcome where
  output : List UInt8
  errors : List String
  exitCode : Nat

def runProgram (arguments : List String) (source : Source) : Outcome :=
  match Options.ofArguments arguments with
  | .error stop => ⟨stop.lines.flatMap fun text => Utf8.encode (text ++ "\n"), [], stop.exitCode⟩
  | .ok options =>
    let t := runSession options.prompt (.fresh options.scale) source none
    ⟨t.output, options.errorLines t.events t.ending, t.ending.exitCode⟩

end DecimalCalculator
