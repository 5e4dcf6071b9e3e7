import DiceFormula.CommandLine.Output
import DiceFormula.Formula
import DiceFormula.Source.Seeded

/-!
# The dialogue

Without a roll among its arguments the program asks for rolls, line by line, until the user has had
enough or the input ends. The lines of the input are by turns rolls and answers to the question
whether to go on.
-/

namespace DiceFormula.CommandLine

/-! ## Lines -/

/-- The lines of an input. What follows the last line feed is a line unless it is empty. -/
def lines : Bytes → List Bytes
  | [] => []
  | b :: rest =>
      if b = ascii '\n' then [] :: lines rest
      else match lines rest with
        | [] => [[b]]
        | line :: others => (b :: line) :: others

/-- Spaces and tabs are taken off both ends of a line. -/
def isPadding (b : UInt8) : Bool :=
  b == ascii ' ' || b == ascii '\t'

def trim (line : Bytes) : Bytes :=
  ((line.dropWhile isPadding).reverse.dropWhile isPadding).reverse

def rollOfLine : Option Bytes → Except InputFault Bytes
  | none => .error .endOfInput
  | some line =>
      let roll := trim line
      .ok (if roll.isEmpty then defaultRoll else roll)

/-- The answers that ask for another roll, in lower case. -/
def affirmations : List Bytes :=
  [bytes "y", bytes "yes", bytes "д", bytes "да"]

def isAffirmative : Option Bytes → Bool
  | none => false
  | some line => affirmations.contains ((trim line).map lower)

def nextRoll (lines : List Bytes) : Except InputFault Bytes × List Bytes :=
  (rollOfLine lines.head?, lines.tail)

def nextAnswer (lines : List Bytes) : Bool × List Bytes :=
  (isAffirmative lines.head?, lines.tail)

/-! ## One roll -/

/-- Roll a text and print the outcome, or the fault. Tells whether the roll succeeded. Nothing comes
of a roll with a draw that never ends. -/
def answerRoll (verbose : Bool) (text : Bytes) (generator : Twister) :
    Option (Output × Bool × Twister) :=
  match (roll Source.twister text).runFrom generator with
  | (.error (.source .endless), _) => none
  | (.error fault, generator) =>
      some (rollError text (fault.mapSource DrawFault.toSource), false, generator)
  | (.ok outcome, generator) =>
      match printed verbose outcome with
      | .ok text => some (.shown text, true, generator)
      | .error fault => some (rollError text fault, false, generator)

/-! ## Turns -/

inductive Dialogue where
  | awaitingRoll (generator : Twister)
  | awaitingAnswer (generator : Twister)
  | closed

namespace Dialogue

def opening (generator : Twister) : Output × Dialogue :=
  (.shown (header ++ rollPrompt), .awaitingRoll generator)

/-- Take the next line of the input, or its end. -/
def turn : Dialogue → Option Bytes → Option (Output × Dialogue)
  | awaitingRoll generator, line =>
      match rollOfLine line with
      | .error fault => some (errorLine (untilNul fault.message) ++ .shown farewell, closed)
      | .ok text => do
          let (output, _, generator) ← answerRoll true text generator
          some (.shown (bytes "\n") ++ output ++ .shown (bytes "\n" ++ continuePrompt),
            awaitingAnswer generator)
  | awaitingAnswer generator, line =>
      if isAffirmative line then some (.shown (bytes "\n" ++ rollPrompt), awaitingRoll generator)
      else some (.shown farewell, closed)
  | closed, _ => some ({}, closed)

def continued : Dialogue → List Bytes → Option Output
  | closed, _ => some {}
  | dialogue, [] => do
      let (output, _) ← dialogue.turn none
      some output
  | dialogue, line :: rest => do
      let (output, next) ← dialogue.turn (some line)
      let others ← next.continued rest
      some (output ++ others)

end Dialogue

end DiceFormula.CommandLine
