import DiceFormula.Outcome

/-!
# Reports

A number is reported in one line, its trace: the text of the expression, the same with the thrown
dice filled in, the last step of the calculation, and the value. Stages that would repeat what is
already there are left out. A list is reported as a block of indented lines with the reports of its
parts.
-/

namespace DiceFormula.Outcome

/-! ## The trace of a number -/

/-- The text of the expression with the faces of the dice in place of the pools. -/
def thrownText : Outcome → Bytes
  | node (.dice _) _ rolls _ _ => formatFaces rolls
  | node (.selected _ _ _) _ rolls _ _ => formatFaces rolls
  | node (.binary op _ _) _ _ _ (left :: right :: _) =>
      bytes "(" ++ left.thrownText ++ bytes " " ++ [op.symbol] ++ bytes " " ++
        right.thrownText ++ bytes ")"
  | node expr _ _ _ _ => expr.text

def formatSum (rolls : List Roll) : Bytes :=
  joinWith (bytes " + ") (rolls.map fun roll => Decimal.ofInt roll.value)

/-- The last step of the calculation, or nothing where there is no step. -/
def lastStep : Outcome → Bytes
  | node (.dice _) _ rolls _ _ => formatSum rolls
  | node (.selected _ _ _) _ rolls kept _ => formatSum (keptRolls rolls kept)
  | node (.binary op _ _) _ _ _ (left :: right :: _) =>
      left.value.format ++ bytes " " ++ [op.symbol] ++ bytes " " ++ right.value.format
  | node _ _ _ _ _ => []

def stages (outcome : Outcome) : List Bytes :=
  let text := outcome.expr.text
  let thrown := outcome.thrownText
  let step := outcome.lastStep
  let first := if thrown = text then [text] else [text, thrown]
  if step.isEmpty || step = thrown || step = outcome.value.format then first else first ++ [step]

/-- The trace of a number. The value is put behind the stages unless the last one shows it. -/
def trace (outcome : Outcome) : Except AccessFault Bytes :=
  if outcome.value.isList then .error .traceOfList
  else
    let stages := outcome.stages
    let value := outcome.value.format
    let line := joinWith (bytes " => ") stages
    .ok (if stages.getLast? = some value then line else line ++ bytes " = " ++ value)

/-! ## The report -/

def line (depth : Nat) (text : Bytes) : Bytes :=
  List.replicate (2 * depth) (ascii ' ') ++ text ++ bytes "\n"

mutual

def reportAt (depth : Nat) : Outcome → Except AccessFault Bytes
  | node expr value rolls kept children =>
      match expr with
      | .repeated count body => do
          let blocks ← reportParts depth 0 children
          let number := Decimal.ofInt count
          .ok (line depth (bytes "List Expansion: " ++ expr.text) ++
            line (depth + 1) (bytes "Count: " ++ number ++ bytes " => " ++ number) ++
            line (depth + 1) (bytes "Expression: " ++ body.text) ++
            line (depth + 1) (bytes "Results: " ++ value.format) ++ blocks)
      | .sequence _ => do
          let blocks ← reportParts depth 0 children
          .ok (line depth (bytes "Sequence: " ++ expr.text) ++
            line (depth + 1) (bytes "Results: " ++ value.format) ++ blocks)
      | _ => do
          let text ← trace (node expr value rolls kept children)
          .ok (line depth text)

/-- The reports of the parts of a list, each behind a line with its number. -/
def reportParts (depth index : Nat) : List Outcome → Except AccessFault Bytes
  | [] => .ok []
  | child :: rest => do
      let report ← reportAt (depth + 2) child
      let others ← reportParts depth (index + 1) rest
      .ok (line (depth + 1) (Decimal.ofNat index ++ bytes ": ") ++ report ++ others)

end

def report (outcome : Outcome) : Except AccessFault Bytes :=
  reportAt 0 outcome

end DiceFormula.Outcome
