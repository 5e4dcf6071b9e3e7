import DiceFormula.Expr.Basic
import DiceFormula.Source

/-!
# Plans

An expression fixes the draws of its evaluation in advance: their number, their order and the range
of each. How much an evaluation comes to, the constants included, follows from the expression alone
too, and is limited by the size of the expression.
-/

namespace DiceFormula.Expr

mutual

def plan : Expr → List Range
  | constant _ => []
  | dice pool => List.replicate pool.count.toNat (pool.leastFace, pool.greatestFace)
  | selected _ _ pool => List.replicate pool.count.toNat (pool.leastFace, pool.greatestFace)
  | binary _ left right => left.plan ++ right.plan
  | repeated count body => (List.replicate count.toNat body.plan).flatten
  | sequence items => planOfAll items

def planOfAll : List Expr → List Range
  | [] => []
  | item :: rest => item.plan ++ planOfAll rest

end

mutual

/-- The number of dice and constants, the repeated ones counted each time. -/
def load : Expr → Int
  | constant _ => 1
  | dice pool => pool.count
  | selected _ _ pool => pool.count
  | binary _ left right => left.load + right.load
  | repeated count body => count * body.load
  | sequence items => loadOfAll items

def loadOfAll : List Expr → Int
  | [] => 0
  | item :: rest => item.load + loadOfAll rest

end

mutual

/-- The number of constants and pools that are written down, those of a repeated body once. -/
def leafCount : Expr → Nat
  | constant _ => 1
  | dice _ => 1
  | selected _ _ _ => 1
  | binary _ left right => left.leafCount + right.leafCount
  | repeated _ body => body.leafCount
  | sequence items => leafCountOfAll items

def leafCountOfAll : List Expr → Nat
  | [] => 0
  | item :: rest => item.leafCount + leafCountOfAll rest

end

end DiceFormula.Expr

namespace DiceFormula.Source

variable {σ ε : Type}

/-- The answers of a source to several draws, up to the first refusal. -/
def answers (source : Source σ ε) : List Range → σ → Except ε (List Int) × σ
  | [], state => (.ok [], state)
  | (lower, upper) :: rest, state =>
      match source.draw lower upper state with
      | (.error fault, state) => (.error fault, state)
      | (.ok value, state) =>
          let (values, state) := answers source rest state
          (values.map (value :: ·), state)

/-- A source that answers inside every range that is not empty, and refuses an empty one. -/
structure IsFair (source : Source σ ε) : Prop where
  answer : ∀ (lower upper : Int) (state : σ), lower ≤ upper →
    ∃ value next, source.draw lower upper state = (.ok value, next) ∧ lower ≤ value ∧ value ≤ upper
  refusal : ∀ (lower upper : Int) (state : σ), upper < lower →
    ∃ fault next, source.draw lower upper state = (.error fault, next)

end DiceFormula.Source
