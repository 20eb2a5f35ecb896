import RangeAdvisor.Briefing

/-!
# Command line

`range-advisor NAME=VALUE ...` reads a snapshot document on standard input and prints a briefing
on it, one note a line. The arguments name the strategy (`STRATEGY`), an amount of X to pair
(`AMOUNT_X`) and settings; of two arguments with one name the later counts. An error is printed
after the notes before it, and the exit code is then 1.
-/

namespace RangeAdvisor.Main

/-- The value of the last argument `name=value` for a name. -/
def lookup (args : List String) (name : String) : Option String :=
  (args.reverse.find? fun a => a.startsWith (name ++ "=")).map fun a => a.drop (name.length + 1) |>.copy

/-- The rest of a stream, appended to `acc`. -/
partial def readRest (stream : IO.FS.Stream) (acc : String) : IO String := do
  let line ← stream.getLine
  if line.isEmpty then pure acc else readRest stream (acc ++ line)

end RangeAdvisor.Main

/-- Prints the briefing on the snapshot read from standard input. -/
def main (args : List String) : IO UInt32 := do
  let text ← RangeAdvisor.Main.readRest (← IO.getStdin) ""
  let b := RangeAdvisor.Briefing.run (RangeAdvisor.Main.lookup args) text
  let stdout ← IO.getStdout
  for n in b.notes do
    stdout.putStrLn n.text
  match b.failure with
  | none => pure 0
  | some e =>
    (← IO.getStderr).putStrLn ("Error: " ++ e.message)
    pure 1
