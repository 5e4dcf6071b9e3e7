/-!
# The Mersenne twister

The 64-bit Mersenne twister, MT19937-64. Its state is a window of 312 words of a linear recurrence;
each step replaces the oldest word by the next one and scrambles that word for output.
-/

namespace DiceFormula

/-- A generator: the latest words of the recurrence, and the place of the oldest of them. -/
structure Twister where
  words : Vector UInt64 312
  oldest : Fin 312

namespace Twister

/-! ## Seeding -/

/-- The word that follows another one in the initial window, with its place. -/
def spread (previous : UInt64) (place : Nat) : UInt64 :=
  (6364136223846793005 : UInt64) * (previous ^^^ (previous >>> 62)) + place.toUInt64

/-- The words of the initial window up to a place. -/
def seedWords (seed : UInt64) : (last : Nat) → Vector UInt64 (last + 1)
  | 0 => #v[seed]
  | last + 1 =>
      let words := seedWords seed last
      words.push (spread words.back (last + 1))

def ofSeed (seed : UInt64) : Twister where
  words := seedWords seed 311
  oldest := 0

/-! ## Steps -/

def twist (word : UInt64) : UInt64 :=
  (word >>> 1) ^^^ (if word &&& 1 = 1 then 0xB5026F5AA96619E9 else 0)

/-- The high 33 bits of one word above the low 31 bits of another. -/
def splice (high low : UInt64) : UInt64 :=
  (high &&& 0xFFFFFFFF80000000) ||| (low &&& 0x7FFFFFFF)

def temper (word : UInt64) : UInt64 :=
  let word := word ^^^ ((word >>> 29) &&& 0x5555555555555555)
  let word := word ^^^ ((word <<< 17) &&& 0x71D67FFFEDA60000)
  let word := word ^^^ ((word <<< 37) &&& 0xFFF7EEE000000000)
  word ^^^ (word >>> 43)

def next (generator : Twister) : UInt64 × Twister :=
  let place := generator.oldest
  let spliced := splice (generator.words.get place) (generator.words.get (place + 1))
  let word := generator.words.get (place + 156) ^^^ twist spliced
  (temper word, { words := generator.words.set place word, oldest := place + 1 })

/-- The number of states of a generator whose window has so many words. -/
@[irreducible] def stateCount (size : Nat) : Nat :=
  size * Nat.pow UInt64.size size

end Twister

end DiceFormula
