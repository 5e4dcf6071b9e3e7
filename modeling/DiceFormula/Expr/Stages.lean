import DiceFormula.Expr.Exact
import DiceFormula.Expr.Plan

/-!
# Stages of a calculation

What the line of a number shows, told by its expression and the faces of its dice alone: which
stages there are, and what stands in each of them.
-/

namespace DiceFormula.Expr

/-! ## 1. Which stages there are -/

def isConstant : Expr → Bool
  | constant _ => true
  | _ => false

mutual

def throwsDice : Expr → Bool
  | constant _ => false
  | dice _ | selected _ _ _ => true
  | binary _ left right => left.throwsDice || right.throwsDice
  | repeated _ body => body.throwsDice
  | sequence items => anyThrowsDice items

def anyThrowsDice : List Expr → Bool
  | [] => false
  | item :: rest => item.throwsDice || anyThrowsDice rest

end

/-- An expression has a step of its own: an operation, or a sum of several dice. -/
def hasStep : Expr → Bool
  | binary _ _ _ => true
  | dice pool => decide (2 ≤ pool.count)
  | selected selector amount pool => decide (2 ≤ selector.leaves amount pool)
  | _ => false

/-! ## 2. What stands in them -/

/-- The text of an expression with the faces of its dice in place of the pools and selections. -/
def filledText : Expr → List Int → Bytes
  | dice _, faces | selected _ _ _, faces =>
      bytes "[" ++ joinWith (bytes ", ") (faces.map Decimal.ofInt) ++ bytes "]"
  | binary op left right, faces =>
      bytes "(" ++ left.filledText (faces.take left.plan.length) ++ bytes " " ++ [op.symbol] ++
        bytes " " ++ right.filledText (faces.drop left.plan.length) ++ bytes ")"
  | e, _ => e.text

def sumText (faces : List Int) : Bytes :=
  joinWith (bytes " + ") (faces.map Decimal.ofInt)

/-- The step of an expression: the sum of the dice that are left, in the order of their throw, or
the operation on the values of the operands. -/
inductive StepsTo : Expr → List Int → Bytes → Prop where
  | dice {pool : Pool} {faces : List Int} : StepsTo (.dice pool) faces (sumText faces)
  | selected {selector : Selector} {amount : Int} {pool : Pool} {faces : List Int} :
      StepsTo (.selected selector amount pool) faces
        (sumText (selector.keptFaces amount pool faces))
  | binary {op : Operator} {left right : Expr} {f g : List Int} {a b : Int} :
      ComesTo left f (.number a) → ComesTo right g (.number b) →
      StepsTo (.binary op left right) (f ++ g)
        (Decimal.ofInt a ++ bytes " " ++ [op.symbol] ++ bytes " " ++ Decimal.ofInt b)

/-- The line of a number: its text, the same with the dice filled in, its step, and its value. -/
def lineText (e : Expr) (faces : List Int) (step : Bytes) (value : Int) : Bytes :=
  e.text ++ (if e.throwsDice then bytes " => " ++ e.filledText faces else []) ++
    (if e.hasStep then bytes " => " ++ step else []) ++
    (if e.isConstant then [] else bytes " = " ++ Decimal.ofInt value)

end DiceFormula.Expr
