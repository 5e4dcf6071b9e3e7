import DiceFormula.CommandLine.Run

/-!
# The program

Connects a run of the program to the console.
-/

namespace DiceFormula.Program

open CommandLine

def emit (output : Output) : IO Unit := do
  let stdout ← IO.getStdout
  stdout.write output.out.toByteArray
  stdout.flush
  let stderr ← IO.getStderr
  stderr.write output.err.toByteArray
  stderr.flush

/-- The next line of standard input without its line feed, or nothing at the end of the input. -/
partial def nextLine (stdin : IO.FS.Stream) (soFar : Bytes) : IO (Option Bytes) := do
  let chunk ← stdin.read 1
  match chunk.toList with
  | [] => pure (if soFar.isEmpty then none else some soFar.reverse)
  | b :: _ => if b = ascii '\n' then pure (some soFar.reverse) else nextLine stdin (b :: soFar)

/-- Hold a dialogue until it is over. -/
partial def converse (stdin : IO.FS.Stream) : Dialogue → IO Unit
  | .closed => pure ()
  | dialogue => do
      let line ← nextLine stdin []
      if let some (output, next) := dialogue.turn line then
        emit output
        converse stdin next

end DiceFormula.Program

open DiceFormula DiceFormula.CommandLine DiceFormula.Program in
/-- The program. Without a seed among the arguments it takes one from the system. -/
def main (arguments : List String) : IO UInt32 := do
  let entropy ← IO.getRandomBytes 4
  let seed := entropy.toList.foldl (fun n b => 256 * n + b.toUInt64) 0
  -- A search that has no end never comes back with `none`.
  let some (output, course) := start (arguments.map bytes) seed | pure 1
  emit output
  match course with
  | .finished exitCode => pure exitCode
  | .dialogue dialogue => do
      converse (← IO.getStdin) dialogue
      pure 0
