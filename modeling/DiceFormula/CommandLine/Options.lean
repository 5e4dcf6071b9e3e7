import DiceFormula.Decimal
import DiceFormula.Fault

/-!
# Options

The arguments of the program: `-v` or `--verbose`, `--seed` with the argument behind it, and the
words of a roll.
-/

namespace DiceFormula.CommandLine

structure Options where
  verbose : Bool := false
  seed : Option UInt64 := none
  words : List Bytes := []
  deriving Repr

def Options.roll (options : Options) : Bytes :=
  joinWith (bytes " ") options.words

/-- A seed is a decimal numeral below `2 ^ 64`. -/
def readSeed (text : Bytes) : Except InputFault UInt64 :=
  if text.isEmpty || !text.all isDigit then .error (.badSeed text)
  else if UInt64.size ≤ Decimal.valueOf text then .error (.badSeed text)
  else .ok (Decimal.valueOf text).toUInt64

/-- Read the arguments from left to right. The argument behind `--seed` is always its value, and the
last seed counts. -/
def readOptions : List Bytes → Except InputFault Options
  | [] => .ok {}
  | argument :: rest =>
      if argument = bytes "-v" ∨ argument = bytes "--verbose" then do
        let options ← readOptions rest
        .ok { options with verbose := true }
      else if argument = bytes "--seed" then
        match rest with
        | [] => .error .missingSeed
        | value :: rest => do
            let seed ← readSeed value
            let options ← readOptions rest
            .ok { options with seed := options.seed <|> some seed }
      else do
        let options ← readOptions rest
        .ok { options with words := argument :: options.words }

end DiceFormula.CommandLine
