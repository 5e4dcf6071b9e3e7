import DiceFormula.Resume
import DiceFormula.Source.Seeded

/-!
# Words and numbers

What one word of random bits stands for in a range, as a machine computes it, and which words a draw
takes from its generator. No bound is set to the number of those that are rejected.
-/

namespace DiceFormula

namespace Word

/-- The bits of a number in two's complement. -/
def bits (i : Int) : UInt64 :=
  (Int64.ofInt i).toUInt64

def signed (word : UInt64) : Int :=
  word.toInt64.toInt

end Word

namespace Uniform

def rangeSize (lower upper : Int) : Nat :=
  (upper - lower).toNat + 1

/-- The number that a word stands for in a range that is not empty, or none if the word is rejected.
Sums, differences and the low half of the product wrap around; only a range of all numbers has no
size among the words. -/
def number? (lower upper : Int) (word : UInt64) : Option Int :=
  let width := Word.bits upper - Word.bits lower
  if width = 0xFFFFFFFFFFFFFFFF then some (Word.signed (word + Word.bits lower))
  else
    let size := width + 1
    let low := word * size
    let high := ((word.toNat * size.toNat) >>> 64).toUInt64
    if low < size ∧ low < -size % size then none
    else some (Word.signed (high + Word.bits lower))

/-- A value is found behind so many words of a generator: all of them are rejected, and the next one
stands for the value. -/
structure Found (lower upper : Int) (generator : Twister) (rejections : Nat) (value : Int) :
    Prop where
  rejected : ∀ i < rejections, number? lower upper (answerAt Twister.next i generator) = none
  accepted : number? lower upper (answerAt Twister.next rejections generator) = some value

/-- From a place on, all words of a generator are rejected for one range that is not empty. -/
def RunsDry (generator : Twister) : Prop :=
  ∃ lower upper start, Word.Fits lower ∧ Word.Fits upper ∧ lower ≤ upper ∧
    ∀ i ≥ start, number? lower upper (answerAt Twister.next i generator) = none

end Uniform

/-- The answers of a source to several draws, also those behind a refusal, and the state that is
left. -/
def Source.replies {σ ε : Type} (source : Source σ ε) :
    List Range → σ → List (Except ε Int) × σ
  | [], state => ([], state)
  | (lower, upper) :: rest, state =>
      let (reply, state) := source.draw lower upper state
      let (others, state) := replies source rest state
      (reply :: others, state)

theorem Source.replies_cons {σ ε : Type} (source : Source σ ε) (range : Range)
    (rest : List Range) (state : σ) :
    source.replies (range :: rest) state =
      let (reply, later) := source.draw range.1 range.2 state
      (reply :: (source.replies rest later).1, (source.replies rest later).2) := rfl

end DiceFormula
