import DiceFormula.CommandLine.Dialogue
import DiceFormula.CommandLine.Options

/-!
# A run of the program

The arguments decide between one roll and a dialogue. The exit code is zero unless the arguments are
wrong or the one roll fails.
-/

namespace DiceFormula.CommandLine

/-- How a run goes on when its arguments have been dealt with. -/
inductive Course where
  | finished (exitCode : UInt32)
  | dialogue (dialogue : Dialogue)

/-- Deal with the arguments. The spare seed is for arguments without one. -/
def start (arguments : List Bytes) (spareSeed : UInt64) : Option (Output × Course) :=
  match readOptions arguments with
  | .error fault => some (errorLine (untilNul fault.message) ++ { err := usage }, .finished 1)
  | .ok options => do
      let generator := Twister.ofSeed (options.seed.getD spareSeed)
      if options.roll.isEmpty then
        let (output, dialogue) := Dialogue.opening generator
        some (output, .dialogue dialogue)
      else
        let (output, success, _) ← answerRoll options.verbose options.roll generator
        some (output, .finished (if success then 0 else 1))

/-- A whole run, if it comes to an end: the exit code, and all that is printed. -/
def run? (arguments : List Bytes) (input : Bytes) (spareSeed : UInt64) :
    Option (UInt32 × Output) := do
  match ← start arguments spareSeed with
  | (output, .finished exitCode) => some (exitCode, output)
  | (output, .dialogue dialogue) =>
      let rest ← dialogue.continued (lines input)
      some (0, output ++ rest)

/-- A run that has come to its end. -/
def run (arguments : List Bytes) (input : Bytes) (spareSeed : UInt64) : UInt32 × Output :=
  (run? arguments input spareSeed).getD (1, {})

end DiceFormula.CommandLine
