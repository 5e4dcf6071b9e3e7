import DiceFormula.Expr.Basic
import DiceFormula.Outcome.Selection
import DiceFormula.Word
import Mathlib

/-!
# Exact values

What an expression comes to over the unbounded integers for given faces of its dice, as long as
every intermediate number lies in the signed 64-bit range. The faces are handed out to the dice from
left to right.
-/

namespace DiceFormula

/-- The exact result of an operator; there is no quotient by zero, and other quotients are rounded
toward zero. -/
def Operator.exactResult? : Operator → Int → Int → Option Int
  | add, a, b => some (a + b)
  | sub, a, b => some (a - b)
  | mul, a, b => some (a * b)
  | div, a, b => if b = 0 then none else some (a.tdiv b)

def Pool.rollsOf (pool : Pool) (faces : List Int) : List Roll :=
  faces.map fun face => { value := face, sides := pool.sides }

/-- The faces of the dice that a selector leaves. -/
def Selector.keptFaces (selector : Selector) (amount : Int) (pool : Pool) (faces : List Int) :
    List Int :=
  let rolls := pool.rollsOf faces
  (keptRolls rolls (keepByRank rolls (selector.leaves amount pool) selector.prefersHigh)).map
    (·.value)

namespace Expr

mutual

/-- An expression comes to a value for the given faces, and no number on the way leaves the
range. -/
inductive ComesTo : Expr → List Int → Value → Prop where
  | constant {value : Int} : Word.Fits value → ComesTo (.constant value) [] (.number value)
  | dice {pool : Pool} {faces : List Int} : faces.length = pool.count.toNat →
      Word.Fits faces.sum → ComesTo (.dice pool) faces (.number faces.sum)
  | selected {selector : Selector} {amount : Int} {pool : Pool} {faces : List Int} :
      faces.length = pool.count.toNat → Word.Fits faces.sum →
      Word.Fits (selector.keptFaces amount pool faces).sum →
      ComesTo (.selected selector amount pool) faces
        (.number (selector.keptFaces amount pool faces).sum)
  | binary {op : Operator} {left right : Expr} {f g : List Int} {a b result : Int} :
      ComesTo left f (.number a) → ComesTo right g (.number b) → op.exactResult? a b = some result →
      Word.Fits result → ComesTo (.binary op left right) (f ++ g) (.number result)
  | repeated {count : Int} {body : Expr} {faces : List Int} {values : List Value} :
      AllComeTo (List.replicate count.toNat body) faces values →
      ComesTo (.repeated count body) faces (.list values)
  | sequence {items : List Expr} {faces : List Int} {values : List Value} :
      AllComeTo items faces values → ComesTo (.sequence items) faces (.list values)

inductive AllComeTo : List Expr → List Int → List Value → Prop where
  | nil : AllComeTo [] [] []
  | cons {item : Expr} {rest : List Expr} {f g : List Int} {value : Value} {values : List Value} :
      ComesTo item f value → AllComeTo rest g values →
      AllComeTo (item :: rest) (f ++ g) (value :: values)

end

end Expr

end DiceFormula
