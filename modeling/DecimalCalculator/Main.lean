import DecimalCalculator.Program

/-!
# The command line

Reads lines from the standard input as they come, writes the answers to the standard output and
the log to the standard error.
-/

namespace DecimalCalculator

/-- the bytes up to the next newline, one by one, so that a line is answered as soon as it ends -/
partial def readRaw (input : IO.FS.Stream) (line : List UInt8) : IO (List UInt8) := do
  let block ← input.read 1
  match block.toList with
  | [] => return line.reverse
  | b :: _ => if b = newline then return (b :: line).reverse else readRaw input (b :: line)

/-- does an action at once -/
def performNow (level : Level) (output errors : IO.FS.Stream) : Action → IO Unit
  | .write text => do
    output.write text.toUTF8
    output.flush
  | .log e => if e.visibleAt level then errors.putStrLn e.line else pure ()
  | .adopt _ => pure ()

/-- the session from here on, line by line, and how it ends -/
partial def converse (options : Options) (input output errors : IO.FS.Stream) (c : Calculator) :
    IO Ending := do
  performNow options.level output errors (.write options.prompt)
  match ← readRaw input [] with
  | [] =>
    performNow options.level output errors (.log .endOfInput)
    return .finished
  | raw =>
    let (after, r) := c.answer (lineText raw)
    for action in answerActions r do
      performNow options.level output errors action
    match lineEnding? r with
    | some ending => return ending
    | none => converse options input output errors after

end DecimalCalculator

open DecimalCalculator

def main (arguments : List String) : IO UInt32 := do
  let output ← IO.getStdout
  let errors ← IO.getStderr
  match Options.ofArguments arguments with
  | .error stop =>
    for text in stop.lines do
      output.putStrLn text
    return stop.exitCode.toUInt32
  | .ok options =>
    performNow options.level output errors (.log (.started options.scale))
    let ending ←
      try converse options (← IO.getStdin) output errors (.fresh options.scale)
      catch e => pure (.aborted (.io (toString e)))
    performNow options.level output errors (.log ending.event)
    for text in ending.complaint do
      errors.putStrLn text
    return ending.exitCode.toUInt32
