import DiceFormula.Outcome

/-!
# Selecting dice

Dice are ranked by their faces, and of two equal faces the earlier die ranks first in either
direction. The first ones of the ranking are kept.
-/

namespace DiceFormula

/-- One face may stand in front of another in the ranking. -/
def ranksBefore (high : Bool) (a b : Int) : Bool :=
  if high then decide (b ≤ a) else decide (a ≤ b)

def ranking (rolls : List Roll) (high : Bool) : List Nat :=
  (rolls.zipIdx.mergeSort fun a b => ranksBefore high a.1.value b.1.value).map (·.2)

/-- As many flags as there are dice, set at the given places. -/
def flagsAt (places : List Nat) (size : Nat) : List Bool :=
  (places.foldl (fun flags place => flags.setIfInBounds place true)
    (Array.replicate size false)).toList

/-- A flag for every die, set for as many of the first ones of the ranking as are to be kept. -/
def keepByRank (rolls : List Roll) (keep : Int) (high : Bool) : List Bool :=
  flagsAt ((ranking rolls high).take keep.toNat) rolls.length

/-! ## Places in the ranking -/

def outranks (high : Bool) (a b : Int) : Bool :=
  if high then decide (b < a) else decide (a < b)

/-- A die, with its place among the dice, comes before another one: its face is better, or the same
and thrown earlier. -/
def comesBefore (high : Bool) (a b : Roll × Nat) : Bool :=
  outranks high a.1.value b.1.value || (a.1.value == b.1.value && decide (a.2 < b.2))

def rank (rolls : List Roll) (high : Bool) (die : Roll × Nat) : Nat :=
  rolls.zipIdx.countP fun other => comesBefore high other die

end DiceFormula
