import DiceFormula.Expr.Exact
import DiceFormula.Expr.Plan
import DiceFormula.Outcome.Evaluation

/-!
# Laws of the selectors

How the four selections of as many dice from one throw are related to each other, to the other
throws with the same faces, and to the throws in which a die shows more.
-/

namespace DiceFormula

/-- Whatever source answers the draws of an expression with the given faces, the evaluation succeeds
with this number and these flags. -/
def Expr.Yields (e : Expr) (faces : List Int) (value : Int) (kept : List Bool) : Prop :=
  ∀ (σ ε : Type) (source : Source σ ε) (state later : σ),
    source.answers e.plan state = (.ok faces, later) →
      ∃ outcome, (evaluate source e).runFrom state = (.ok outcome, later) ∧
        outcome.value = .number value ∧ outcome.kept = kept

namespace Selector

def total (selector : Selector) (amount : Int) (pool : Pool) (faces : List Int) : Int :=
  (selector.keptFaces amount pool faces).sum

def keptFlags (selector : Selector) (amount : Int) (pool : Pool) (faces : List Int) : List Bool :=
  keepByRank (pool.rollsOf faces) (selector.leaves amount pool) selector.prefersHigh

end Selector

/-- The sums of so many of the given dice, however they are chosen. -/
def choiceSums (amount : Int) (faces : List Int) : Set Int :=
  {sum | ∃ chosen ∈ faces.sublistsLen amount.toNat, chosen.sum = sum}

/-- The laws of keeping or dropping so many dice of a pool that shows the given faces. -/
structure Pool.SelectionLaws (pool : Pool) (amount : Int) (faces : List Int) : Prop where
  dice_yields : (Expr.dice pool).Yields faces faces.sum []
  selected_yields : ∀ selector, (Expr.selected selector amount pool).Yields faces
    (selector.total amount pool faces) (selector.keptFlags amount pool faces)
  /-- No choice of so many dice has a greater sum than the highest ones. -/
  highest_isGreatest :
    IsGreatest (choiceSums amount faces) (Selector.keepHighest.total amount pool faces)
  /-- No choice of so many dice has a smaller sum than the lowest ones. -/
  lowest_isLeast :
    IsLeast (choiceSums amount faces) (Selector.keepLowest.total amount pool faces)
  highest_add_rest :
    Selector.keepHighest.total amount pool faces + Selector.dropHighest.total amount pool faces =
      faces.sum
  lowest_add_rest :
    Selector.keepLowest.total amount pool faces + Selector.dropLowest.total amount pool faces =
      faces.sum
  /-- Keeping the highest dice is dropping all others as the lowest ones. -/
  highest_eq_rest : amount < pool.count → ∃ value kept,
    (Expr.selected .keepHighest amount pool).Yields faces value kept ∧
      (Expr.selected .dropLowest (pool.count - amount) pool).Yields faces value kept
  /-- Keeping the lowest dice is dropping all others as the highest ones. -/
  lowest_eq_rest : amount < pool.count → ∃ value kept,
    (Expr.selected .keepLowest amount pool).Yields faces value kept ∧
      (Expr.selected .dropHighest (pool.count - amount) pool).Yields faces value kept
  /-- The order in which the faces were thrown does not matter. -/
  of_perm : ∀ others, others.Perm faces → ∀ selector, ∃ kept,
    (Expr.selected selector amount pool).Yields others (selector.total amount pool faces) kept
  /-- With a greater face on one die no selection comes to less. -/
  of_raised : ∀ place face raised, faces[place]? = some face → face ≤ raised →
    raised ≤ pool.greatestFace → Word.Fits (faces.set place raised).sum → ∀ selector, ∃ value kept,
      (Expr.selected selector amount pool).Yields (faces.set place raised) value kept ∧
        selector.total amount pool faces ≤ value

end DiceFormula
