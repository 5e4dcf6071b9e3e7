import DiceFormula.Source
import DiceFormula.Source.Twister
import DiceFormula.Word

/-!
# Uniform draws

A word of 64 random bits is brought into a range of `r` numbers by multiplying it by `r` and keeping
the high half of the product. Words whose low half falls short of the remainder of `2 ^ 64` by `r`
are rejected, which leaves equally many words for every number of the range. A draw goes on until a
word is not rejected, and has no end if there is no such word.
-/

namespace DiceFormula

namespace Uniform

/-- A word is not rejected for a range of so many numbers. The remainder is only formed where the
low half of the product is small enough for it to matter. -/
def accepts (size : Nat) (word : UInt64) : Bool :=
  let low := (word.toNat * size) % UInt64.size
  if low < size then decide ((UInt64.size - size) % size ≤ low) else true

/-- The place in a range of so many numbers that a word leads to. -/
def place (size : Nat) (word : UInt64) : Nat :=
  (word.toNat * size) / UInt64.size

/-- The first of so many words that is not rejected. -/
def acceptedAmong (size : Nat) : (words : Nat) → Twister → Option (UInt64 × Twister)
  | 0, _ => none
  | words + 1, generator =>
      let (word, generator) := generator.next
      if accepts size word then some (word, generator) else acceptedAmong size words generator

/-- The next word that is not rejected, or none where all words to come are rejected. Within as many
words as a generator has states, an earlier state has come again, and with it the same words. -/
def nextAccepted (size : Nat) (generator : Twister) : Option (UInt64 × Twister) :=
  acceptedAmong size (Twister.stateCount 312) generator

/-- A number of a range that is not empty. Every word stands for a number of the full range. -/
def draw (lower upper : Int) (generator : Twister) : Option (Int × Twister) :=
  let size := (upper - lower).toNat + 1
  if size = UInt64.size then
    let (word, generator) := generator.next
    some (lower + word.toNat, generator)
  else do
    let (word, generator) ← nextAccepted size generator
    some (lower + place size word, generator)

end Uniform

/-- Why a generator gives no number of a range. -/
inductive DrawFault where
  | emptyRange
  -- Nothing is thrown then: the draw never comes to an end.
  | endless
  deriving DecidableEq, Repr

def DrawFault.toSource : DrawFault → SourceFault
  | emptyRange => .emptyRange
  | endless => .exhausted

namespace Source

/-- Draws uniform numbers with a generator. An empty range is refused before anything is drawn. -/
def twister : Source Twister DrawFault where
  draw lower upper generator :=
    if upper < lower then (.error .emptyRange, generator)
    else match Uniform.draw lower upper generator with
      | some (value, generator) => (.ok value, generator)
      | none => (.error .endless, generator)

def seeded : Source Twister :=
  twister.mapFault DrawFault.toSource

end Source

end DiceFormula
