import DiceFormula.Expr.Arithmetic
import DiceFormula.Outcome.Selection
import DiceFormula.Source

/-!
# Evaluation

The outcome of an expression for a source of draws. Dice are thrown one after another from left to
right, and sums are checked after every die. A repetition evaluates its body anew each time.
-/

namespace DiceFormula

variable {σ ε : Type}

/-! ## Dice -/

def checkedSum (left right : Int) : Except OwnFault Int :=
  (Operator.add.apply left right).mapError .evaluation

def sumFrom (total : Int) : List Int → Except OwnFault Int
  | [] => .ok total
  | value :: rest => (checkedSum total value).bind fun total => sumFrom total rest

/-- Throw so many dice of a pool: the dice, and their sum added to a total. -/
def throwDice (source : Source σ ε) (pool : Pool) : Nat → Int → Rolling σ ε (List Roll × Int)
  | 0, total => pure ([], total)
  | count + 1, total => do
      let value ← Rolling.draw source pool.leastFace pool.greatestFace
      let total ← Rolling.ofExcept (checkedSum total value)
      let (rolls, sum) ← throwDice source pool count total
      pure ({ value := value, sides := pool.sides } :: rolls, sum)

def evaluatePool (source : Source σ ε) (pool : Pool) : Rolling σ ε Outcome := do
  let (rolls, sum) ← throwDice source pool pool.count.toNat 0
  pure (.node (.dice pool) (.number sum) rolls [] [])

/-- The outcome of a selection, whose only child is the outcome of the pool. -/
def evaluateSelected (source : Source σ ε) (selector : Selector) (amount : Int) (pool : Pool) :
    Rolling σ ε Outcome := do
  let thrown ← evaluatePool source pool
  let kept := keepByRank thrown.rolls (selector.leaves amount pool) selector.prefersHigh
  let sum ← Rolling.ofExcept (sumFrom 0 ((keptRolls thrown.rolls kept).map (·.value)))
  pure (.node (.selected selector amount pool) (.number sum) thrown.rolls kept [thrown])

/-! ## Operations and lists -/

/-- The result of an operator on two values, which must be numbers. -/
def combine (op : Operator) (left right : Value) : Except OwnFault Int := do
  let a ← left.asNumber.mapError .access
  let b ← right.asNumber.mapError .access
  (op.apply a b).mapError .evaluation

def times {α : Type} (computation : Rolling σ ε α) : Nat → Rolling σ ε (List α)
  | 0 => pure []
  | count + 1 => do
      let first ← computation
      let others ← times computation count
      pure (first :: others)

/-- The outcome of a list-valued expression with the given parts. -/
def Outcome.ofList (expr : Expr) (children : List Outcome) : Outcome :=
  .node expr (.list (children.map Outcome.value)) [] [] children

mutual

def evaluate (source : Source σ ε) : Expr → Rolling σ ε Outcome
  | .constant value => pure (.node (.constant value) (.number value) [] [] [])
  | .dice pool => evaluatePool source pool
  | .selected selector amount pool => evaluateSelected source selector amount pool
  | .binary op left right => do
      let a ← evaluate source left
      let b ← evaluate source right
      let result ← Rolling.ofExcept (combine op a.value b.value)
      pure (.node (.binary op left right) (.number result) [] [] [a, b])
  | .repeated count body => do
      let outcomes ← times (evaluate source body) count.toNat
      pure (.ofList (.repeated count body) outcomes)
  | .sequence items => do
      let outcomes ← evaluateAll source items
      pure (.ofList (.sequence items) outcomes)

def evaluateAll (source : Source σ ε) : List Expr → Rolling σ ε (List Outcome)
  | [] => pure []
  | item :: rest => do
      let first ← evaluate source item
      let others ← evaluateAll source rest
      pure (first :: others)

end

end DiceFormula
