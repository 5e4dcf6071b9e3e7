import DiceFormula.Expr.Plan
import DiceFormula.Fault
import DiceFormula.Phrase

/-!
# Legal phrases

The expression that the phrase of a text stands for, and the limits on its numbers. Numbers are
taken as they are written, however large they are, and nothing is checked while the expression is
put together.
-/

namespace DiceFormula

/-! ## Faults of shape -/

/-- A fault of the shape of a phrase, or of a text that no token has. The other faults are about the
size of a number, or about a second directive. -/
def MeaningFault.isStructural : MeaningFault → Bool
  | emptySequence | malformedTree _ | countNotInteger | unknownOperator _ | strayDirective _
  | malformedRoll _ | malformedDirective _ | unknownDirective _ | malformedNumber _
  | selectionWithoutDice | missingOperand | listOperand _ | unrepeatable | tooFewItems
  | nestedSequence => true
  | severalDirectives _ | numberTooLarge _ | diceNotPositive _ | tooManyDice _ | sidesNotPositive _
  | amountNotPositive _ | amountExceedsDice _ _ _ | repetitionsNotPositive _ | tooManyRepetitions _
  | tooMuchWork _ => false

namespace Phrase

/-! ## The numbers and words of a phrase -/

/-- The integer written with digits, behind a minus sign or not. -/
def numeral : Bytes → Int
  | [] => 0
  | b :: rest =>
      if b = ascii '-' then -(Decimal.valueOf rest : Int) else (Decimal.valueOf (b :: rest) : Int)

/-- The number of dice written in front of the letter of a roll: one, if nothing is written. -/
def countOf (digits : Bytes) : Int :=
  if digits.isEmpty then 1 else Decimal.valueOf digits

def poolOf (roll : Bytes) : Pool :=
  let count := countOf (roll.takeWhile isDigit)
  let sides := (roll.dropWhile isDigit).tail
  if sides.map lower = bytes "f" then { count := count, sides := 3, kind := .fudge }
  else { count := count, sides := Decimal.valueOf sides }

/-- What a directive selects, by its first two letters. No other letters begin a directive of a
text. -/
def selectorOf (directive : Bytes) : Selector :=
  let letters := (directive.take 2).map lower
  if letters = bytes "kh" then .keepHighest
  else if letters = bytes "kl" then .keepLowest
  else if letters = bytes "dh" then .dropHighest
  else .dropLowest

def amountOf (directive : Bytes) : Int :=
  Decimal.valueOf (directive.drop 2)

def operatorOf (text : Bytes) : Operator :=
  if text = bytes "+" then .add
  else if text = bytes "-" then .sub
  else if text = bytes "*" then .mul
  else .div

/-! ## The expression of a phrase -/

/-- The dice of a pool, or those that the first directive behind it selects. -/
def chosen (pool : Pool) : List Phrase → Expr
  | [] => .dice pool
  | directive :: _ => .selected (selectorOf directive.text) (amountOf directive.text) pool

mutual

/-- The expression that is left of a phrase without its parentheses and without the sequences and
lists of one part. A phrase of a shape that no text has stands for zero. -/
def tree : Phrase → Expr
  | .node .sequence _ _ [part] => part.tree
  | .node .sequence _ _ parts => .sequence (trees parts)
  | .node .list _ _ [part] => part.tree
  | .node .list _ _ [count, body] => .repeated (numeral count.text) body.tree
  | .node .operation text _ [left, right] => .binary (operatorOf text) left.tree right.tree
  | .node .group _ _ [part] => part.tree
  | .node .roll text _ directives => chosen (poolOf text) directives
  | .node .integer text _ _ => .constant (numeral text)
  | _ => .constant 0

def trees : List Phrase → List Expr
  | [] => []
  | part :: rest => part.tree :: trees rest

end

/-! ## The limits -/

structure LegalPool (pool : Pool) : Prop where
  count : 1 ≤ pool.count ∧ pool.count ≤ maxDice
  sides : pool.kind = .fudge ∨ 1 ≤ pool.sides ∧ pool.sides ≤ Word.greatest

/-- At most one directive selects from a pool, and it selects at least one die and at most all. -/
structure LegalDirectives (pool : Pool) (directives : List Phrase) : Prop where
  single : directives.length ≤ 1
  amount : ∀ directive ∈ directives,
    1 ≤ amountOf directive.text ∧ amountOf directive.text ≤ pool.count

mutual

/-- All numbers of a phrase are within the limits, and no list or sequence comes to too much
work. -/
def Legal : Phrase → Prop
  | .node .integer text _ _ => Word.Fits (numeral text)
  | .node .roll text _ directives =>
      LegalPool (poolOf text) ∧ LegalDirectives (poolOf text) directives
  | .node .list _ _ [count, body] =>
      (1 ≤ numeral count.text ∧ numeral count.text ≤ maxRepetitions) ∧ body.Legal ∧
        numeral count.text * body.tree.load ≤ maxWork
  | .node .sequence _ _ parts =>
      AllLegal parts ∧ (2 ≤ parts.length → Expr.loadOfAll (trees parts) ≤ maxWork)
  | .node .list _ _ parts => AllLegal parts
  | .node .operation _ _ parts => AllLegal parts
  | .node .group _ _ parts => AllLegal parts
  | .node .directive _ _ parts => AllLegal parts

def AllLegal : List Phrase → Prop
  | [] => True
  | part :: rest => part.Legal ∧ AllLegal rest

end

theorem trees_eq_map (parts : List Phrase) : trees parts = parts.map tree := by
  induction parts with
  | nil => rfl
  | cons part rest ih => rw [trees, ih, List.map_cons]

theorem allLegal_iff {parts : List Phrase} : AllLegal parts ↔ ∀ part ∈ parts, part.Legal := by
  induction parts with
  | nil => exact ⟨fun _ part hpart => (nomatch hpart), fun _ => trivial⟩
  | cons part rest ih => rw [AllLegal, ih, List.forall_mem_cons]

/-! ## Checking the limits -/

instance (pool : Pool) : Decidable (LegalPool pool) :=
  decidable_of_iff ((1 ≤ pool.count ∧ pool.count ≤ maxDice) ∧
      (pool.kind = .fudge ∨ 1 ≤ pool.sides ∧ pool.sides ≤ Word.greatest))
    ⟨fun h => ⟨h.1, h.2⟩, fun h => ⟨h.count, h.sides⟩⟩

instance (pool : Pool) (directives : List Phrase) : Decidable (LegalDirectives pool directives) :=
  decidable_of_iff (directives.length ≤ 1 ∧ ∀ directive ∈ directives,
      1 ≤ amountOf directive.text ∧ amountOf directive.text ≤ pool.count)
    ⟨fun h => ⟨h.1, h.2⟩, fun h => ⟨h.single, h.amount⟩⟩

mutual

def decideLegal : (phrase : Phrase) → Decidable phrase.Legal
  | .node .integer text _ _ => inferInstanceAs (Decidable (Word.Fits (numeral text)))
  | .node .roll text _ directives =>
      inferInstanceAs (Decidable (LegalPool (poolOf text) ∧ LegalDirectives (poolOf text) directives))
  | .node .list _ _ [count, body] =>
      have := decideLegal body
      inferInstanceAs (Decidable ((1 ≤ numeral count.text ∧ numeral count.text ≤ maxRepetitions) ∧
        body.Legal ∧ numeral count.text * body.tree.load ≤ maxWork))
  | .node .sequence _ _ parts =>
      have := decideAllLegal parts
      inferInstanceAs (Decidable (AllLegal parts ∧
        (2 ≤ parts.length → Expr.loadOfAll (trees parts) ≤ maxWork)))
  | .node .list _ _ [] => inferInstanceAs (Decidable True)
  | .node .list _ _ [part] => decideAllLegal [part]
  | .node .list _ _ (first :: second :: third :: rest) =>
      decideAllLegal (first :: second :: third :: rest)
  | .node .operation _ _ parts => decideAllLegal parts
  | .node .group _ _ parts => decideAllLegal parts
  | .node .directive _ _ parts => decideAllLegal parts

def decideAllLegal : (parts : List Phrase) → Decidable (AllLegal parts)
  | [] => inferInstanceAs (Decidable True)
  | part :: rest =>
      have := decideLegal part
      have := decideAllLegal rest
      inferInstanceAs (Decidable (part.Legal ∧ AllLegal rest))

end

instance (phrase : Phrase) : Decidable phrase.Legal := decideLegal phrase

end Phrase

end DiceFormula
