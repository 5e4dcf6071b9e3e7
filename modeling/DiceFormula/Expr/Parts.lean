import DiceFormula.Expr.WellFormed

/-!
# Parts of expressions

What an expression is evaluated through. A part is found by a path, which says at every node which
of its parts to go on with. The body of a repetition is as many parts as there are evaluations of
it.
-/

namespace DiceFormula.Expr

/-- What is evaluated for an expression, from left to right. A selection throws its whole pool. -/
def parts : Expr → List Expr
  | constant _ | dice _ => []
  | selected _ _ pool => [dice pool]
  | binary _ left right => [left, right]
  | repeated count body => List.replicate count.toNat body
  | sequence items => items

/-- The items that an expression puts into a sequence: its own if it is one, else itself. -/
def items : Expr → List Expr
  | sequence items => items
  | e => [e]

def at? : Expr → List Nat → Option Expr
  | e, [] => some e
  | e, index :: path => e.parts[index]?.bind fun part => part.at? path

theorem at?_cons (e : Expr) (index : Nat) (path : List Nat) :
    e.at? (index :: path) = e.parts[index]?.bind fun part => part.at? path := rfl

/-- The limits at one node, given its parts. -/
def Sound : Expr → Prop
  | constant value => Word.Fits value
  | dice pool => pool.WellFormed
  | selected selector amount pool =>
      1 ≤ amount ∧ amount ≤ pool.count ∧ 0 ≤ selector.leaves amount pool ∧
        selector.leaves amount pool ≤ pool.count
  | binary _ left right => left.yieldsList = false ∧ right.yieldsList = false
  | repeated count body =>
      1 ≤ count ∧ count ≤ maxRepetitions ∧ body.isSequence = false ∧
        (repeated count body).load ≤ maxWork
  | sequence items =>
      2 ≤ items.length ∧ (∀ item ∈ items, item.isSequence = false) ∧
        (sequence items).load ≤ maxWork

end DiceFormula.Expr
