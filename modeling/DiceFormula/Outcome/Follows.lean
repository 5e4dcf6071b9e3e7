import DiceFormula.Expr.Exact
import DiceFormula.Outcome

/-!
# Outcomes that follow their expressions

What an outcome must look like to belong to an expression: the same shape, the dice of every pool,
the flags of every selection, and at every node the value that its parts give. The dice and the
constants of an outcome can be counted.
-/

namespace DiceFormula

namespace Outcome

mutual

/-- An outcome has the shape of an expression, and the value of each node is the one that its dice
and its children give. -/
inductive Follows : Outcome → Expr → Prop where
  | constant {value : Int} : Follows (.node (.constant value) (.number value) [] [] []) (.constant value)
  | dice {pool : Pool} {faces : List Int} : faces.length = pool.count.toNat →
      Follows (.node (.dice pool) (.number faces.sum) (pool.rollsOf faces) [] []) (.dice pool)
  | selected {selector : Selector} {amount : Int} {pool : Pool} {rolls : List Roll}
      {kept : List Bool} {thrown : Outcome} : Follows thrown (.dice pool) → rolls = thrown.rolls →
      kept.length = rolls.length → (kept.count true : Int) = selector.leaves amount pool →
      Follows
        (.node (.selected selector amount pool) (.number ((keptRolls rolls kept).map (·.value)).sum)
          rolls kept [thrown])
        (.selected selector amount pool)
  | binary {op : Operator} {left right : Expr} {a b : Outcome} {x y result : Int} :
      Follows a left → Follows b right → a.value = .number x → b.value = .number y →
      op.exactResult? x y = some result →
      Follows (.node (.binary op left right) (.number result) [] [] [a, b]) (.binary op left right)
  | repeated {count : Int} {body : Expr} {children : List Outcome} :
      AllFollow children (List.replicate count.toNat body) →
      Follows (.node (.repeated count body) (.list (children.map Outcome.value)) [] [] children)
        (.repeated count body)
  | sequence {items : List Expr} {children : List Outcome} : AllFollow children items →
      Follows (.node (.sequence items) (.list (children.map Outcome.value)) [] [] children)
        (.sequence items)

inductive AllFollow : List Outcome → List Expr → Prop where
  | nil : AllFollow [] []
  | cons {outcome : Outcome} {outcomes : List Outcome} {e : Expr} {es : List Expr} :
      Follows outcome e → AllFollow outcomes es → AllFollow (outcome :: outcomes) (e :: es)

end

mutual

/-- The faces of all dice of an outcome, from left to right; a selection's are those of its pool. -/
def faces : Outcome → List Int
  | node (.dice _) _ rolls _ _ => rolls.map (·.value)
  | node _ _ _ _ children => facesOfAll children

def facesOfAll : List Outcome → List Int
  | [] => []
  | child :: rest => child.faces ++ facesOfAll rest

end

mutual

/-- The number of constants among the nodes of an outcome. -/
def constantCount : Outcome → Nat
  | node (.constant _) _ _ _ children => 1 + constantCountOfAll children
  | node _ _ _ _ children => constantCountOfAll children

def constantCountOfAll : List Outcome → Nat
  | [] => 0
  | child :: rest => child.constantCount + constantCountOfAll rest

end

end Outcome

end DiceFormula
