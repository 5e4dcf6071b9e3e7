import DiceFormula.CommandLine.Options

/-!
# What a command line asks for

The pieces that arguments are cut into, and the options that the pieces stand for. Nothing here says
how the pieces are found.
-/

namespace DiceFormula.CommandLine

/-! ## Pieces -/

/-- What is read as one: a flag, a seed with the `--seed` in front of it, or a word of the roll. -/
inductive Piece where
  | flag (spelling : Bytes)
  | seed (value : Bytes)
  | word (text : Bytes)
  deriving DecidableEq, Repr

def IsFlag (argument : Bytes) : Prop :=
  argument = bytes "-v" ∨ argument = bytes "--verbose"

instance (argument : Bytes) : Decidable (IsFlag argument) :=
  inferInstanceAs (Decidable (_ ∨ _))

namespace Piece

/-- The arguments that a piece is written with. -/
def arguments : Piece → List Bytes
  | flag spelling => [spelling]
  | seed value => [bytes "--seed", value]
  | word text => [text]

/-- A word is no option. The value of a seed may be anything, also what looks like an option. -/
def IsProper : Piece → Prop
  | flag spelling => IsFlag spelling
  | seed _ => True
  | word text => ¬ IsFlag text ∧ text ≠ bytes "--seed"

instance : (piece : Piece) → Decidable piece.IsProper
  | flag spelling => inferInstanceAs (Decidable (IsFlag spelling))
  | seed _ => inferInstanceAs (Decidable True)
  | word text => inferInstanceAs (Decidable (¬ IsFlag text ∧ text ≠ bytes "--seed"))

def isFlag : Piece → Bool
  | flag _ => true
  | seed _ | word _ => false

def value? : Piece → Option Bytes
  | seed value => some value
  | flag _ | word _ => none

def word? : Piece → Option Bytes
  | word text => some text
  | flag _ | seed _ => none

end Piece

/-- The arguments of several pieces, with a `--seed` at the end that waits for its value or not. -/
def written (pieces : List Piece) (waiting : Bool) : List Bytes :=
  pieces.flatMap Piece.arguments ++ if waiting then [bytes "--seed"] else []

/-! ## Options -/

def IsSeed (value : Bytes) : Prop :=
  value ≠ [] ∧ (∀ b ∈ value, isDigit b = true) ∧ Decimal.valueOf value < UInt64.size

instance (value : Bytes) : Decidable (IsSeed value) :=
  inferInstanceAs (Decidable (_ ∧ _ ∧ _))

def seedOf (value : Bytes) : UInt64 :=
  (Decimal.valueOf value).toUInt64

/-- The options that pieces stand for. The first value that is no seed is complained about, and of
several seeds the last one counts. -/
def collect (pieces : List Piece) (waiting : Bool) : Except InputFault Options :=
  let values := pieces.filterMap Piece.value?
  match values.find? fun value => ¬ IsSeed value with
  | some value => .error (.badSeed value)
  | none =>
      if waiting then .error .missingSeed
      else .ok
        { verbose := pieces.any Piece.isFlag
          seed := (values.map seedOf).getLast?
          words := pieces.filterMap Piece.word? }

/-- The same options, with everything reported. -/
def Options.loud (options : Options) : Options :=
  { options with verbose := true }

end DiceFormula.CommandLine
