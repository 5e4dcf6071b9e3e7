import DiceFormula.Expr.Work

/-!
# Building expressions

Each function makes one node, or says which limit the node would break. An operand may be missing;
a missing operand is refused like one of the wrong shape.
-/

namespace DiceFormula.Expr.Build

def constant (value : Int) : Expr :=
  .constant value

/-- A pool holds at least one die and at most `maxDice`. -/
def legalCount (count : Int) : Except MeaningFault Unit :=
  if count ≤ 0 then .error (.diceNotPositive count)
  else if maxDice < count then .error (.tooManyDice count)
  else .ok ()

def dice (count sides : Int) : Except MeaningFault Expr := do
  legalCount count
  if sides ≤ 0 then .error (.sidesNotPositive sides)
  else .ok (.dice { count := count, sides := sides })

/-- A fudge die counts as one with three sides. -/
def fudgeDice (count : Int) : Except MeaningFault Expr := do
  legalCount count
  .ok (.dice { count := count, sides := 3, kind := .fudge })

/-- At least one die and at most all dice of a pool are kept or dropped. -/
def selected (selector : Selector) (amount : Int) (operand : Option Expr) :
    Except MeaningFault Expr :=
  match operand with
  | some (.dice pool) =>
      if amount ≤ 0 then .error (.amountNotPositive selector)
      else if pool.count < amount then .error (.amountExceedsDice selector amount pool.text)
      else .ok (.selected selector amount pool)
  | _ => .error .selectionWithoutDice

def binary (op : Operator) (left right : Option Expr) : Except MeaningFault Expr :=
  match left, right with
  | some left, some right =>
      if left.yieldsList then .error (.listOperand left.text)
      else if right.yieldsList then .error (.listOperand right.text)
      else .ok (.binary op left right)
  | _, _ => .error .missingOperand

/-- A body is repeated at most `maxRepetitions` times and within the limit on work. -/
def repeated (count : Int) (body : Option Expr) : Except MeaningFault Expr :=
  if count ≤ 0 then .error (.repetitionsNotPositive count)
  else if maxRepetitions < count then .error (.tooManyRepetitions count)
  else match body with
    | none => .error .unrepeatable
    | some body =>
        if body.isSequence then .error .unrepeatable
        else if body.isTooMuchWork count then .error (.tooMuchWork (Expr.repeated count body).text)
        else .ok (.repeated count body)

def item? : Option Expr → Option Expr
  | some item => if item.isSequence then none else some item
  | none => none

/-- A sequence has at least two items and is within the limit on work. -/
def sequence (items : List (Option Expr)) : Except MeaningFault Expr :=
  if items.length < 2 then .error .tooFewItems
  else match items.mapM item? with
    | none => .error .nestedSequence
    | some items =>
        let whole := Expr.sequence items
        if whole.isTooMuchWork 1 then .error (.tooMuchWork whole.text)
        else .ok whole

end DiceFormula.Expr.Build
