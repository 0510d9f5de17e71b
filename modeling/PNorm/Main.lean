import PNorm.Console.Run

/-!
# The program

Run the arguments of the process, print what comes out, and exit.
-/

open PNorm in
/-- The entry point. -/
def main (args : List String) : IO UInt32 := do
  let outcome := Run.commandLine args
  (← IO.getStdout).putStr outcome.stdout
  (← IO.getStderr).putStr outcome.stderr
  return UInt32.ofNat outcome.exitCode
