import DiceFormula.Fault
import DiceFormula.Word

/-!
# Checked arithmetic

`Operator.apply` gives the exact result of an operator on two words, or the reason why there is
none. Whether a result fits is decided before it is formed and by word operations alone, so that
nothing outside the range is ever computed.
-/

namespace DiceFormula.Operator

/-- The sum of two words lies outside the range. -/
def sumOverflows (left right : Int) : Option Bool :=
  if 0 < right then (Word.sub Word.greatest right).map fun bound => decide (bound < left)
  else if right < 0 then (Word.sub Word.least right).map fun bound => decide (left < bound)
  else some false

def differenceOverflows (left right : Int) : Option Bool :=
  if right < 0 then (Word.add Word.greatest right).map fun bound => decide (bound < left)
  else if 0 < right then (Word.add Word.least right).map fun bound => decide (left < bound)
  else some false

def productOverflows (left right : Int) : Option Bool :=
  if 0 < left then
    if 0 < right then (Word.quot Word.greatest right).map fun bound => decide (bound < left)
    else (Word.quot Word.least left).map fun bound => decide (right < bound)
  else if left < 0 then
    if 0 < right then (Word.quot Word.least right).map fun bound => decide (left < bound)
    else (Word.quot Word.greatest left).map fun bound => decide (right < bound)
  else some false

def quotientOverflows (left right : Int) : Bool :=
  left == Word.least && right == -1

def overflow (op : Operator) (left right : Int) : EvaluationFault :=
  match op with
  | add => .overflowAdding left right
  | sub => .overflowSubtracting left right
  | mul => .overflowMultiplying left right
  | div => .overflowDividing

/-- The result of an operator by word operations alone, tests included. There is none if one of
these operations itself has no result. -/
def compute (op : Operator) (left right : Int) : Option (Except EvaluationFault Int) :=
  match op with
  | add => (sumOverflows left right).bind fun outside =>
      if outside then some (.error (overflow add left right))
      else (Word.add left right).map .ok
  | sub => (differenceOverflows left right).bind fun outside =>
      if outside then some (.error (overflow sub left right))
      else (Word.sub left right).map .ok
  | mul => (productOverflows left right).bind fun outside =>
      if outside then some (.error (overflow mul left right))
      else (Word.mul left right).map .ok
  | div =>
      if right = 0 then some (.error .divisionByZero)
      else if quotientOverflows left right then some (.error (overflow div left right))
      else (Word.quot left right).map .ok

def apply (op : Operator) (left right : Int) : Except EvaluationFault Int :=
  (op.compute left right).getD (.error (op.overflow left right))

end DiceFormula.Operator
