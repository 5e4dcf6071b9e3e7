import DiceFormula.Expr.Exact
import DiceFormula.Expr.Parts
import DiceFormula.Outcome

/-!
# Outcomes that mirror their expressions

The nodes of an outcome are found by the same paths as the parts of an expression. What a node must
hold is said for each kind of expression on its own, in terms of the node and of its children.
-/

namespace DiceFormula.Outcome

def at? : Outcome → List Nat → Option Outcome
  | outcome, [] => some outcome
  | outcome, index :: path => outcome.children[index]?.bind fun child => child.at? path

/-- What a node holds for a kind of expression: its dice, its flags and its value. -/
def Holds (node : Outcome) : Expr → Prop
  | .constant value => node.value = .number value ∧ node.rolls = [] ∧ node.kept = []
  | .dice pool =>
      (node.rolls.length : Int) = pool.count ∧ (∀ roll ∈ node.rolls, roll.sides = pool.sides) ∧
        node.kept = [] ∧ node.value = .number (node.rolls.map (·.value)).sum
  | .selected selector amount pool =>
      node.children.map Outcome.rolls = [node.rolls] ∧ node.kept.length = node.rolls.length ∧
        (node.kept.count true : Int) = selector.leaves amount pool ∧
        node.value = .number ((keptRolls node.rolls node.kept).map (·.value)).sum
  | .binary op _ _ =>
      (∃ x y result, node.children.map Outcome.value = [.number x, .number y] ∧
        op.exactResult? x y = some result ∧ node.value = .number result) ∧
        node.rolls = [] ∧ node.kept = []
  | .repeated _ _ | .sequence _ =>
      node.value = .list (node.children.map Outcome.value) ∧ node.rolls = [] ∧ node.kept = []

/-- A node mirrors an expression: it is a node for this expression, with one child for each of the
parts, and holds what such a node must hold. -/
structure Mirrors (node : Outcome) (e : Expr) : Prop where
  expr_eq : node.expr = e
  isList_value : node.value.isList = e.yieldsList
  map_expr_children : node.children.map Outcome.expr = e.parts
  holds : node.Holds e

end DiceFormula.Outcome
