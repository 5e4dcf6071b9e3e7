import DiceFormula.Expr.Build
import DiceFormula.Expr.Plan

/-!
# Well-formed expressions

Two descriptions of the expressions that can be made: as what the builders make, and by the limits
that hold at every node.
-/

namespace DiceFormula

/-- The limits of a pool. -/
structure Pool.WellFormed (pool : Pool) : Prop where
  count_pos : 1 ≤ pool.count
  count_le : pool.count ≤ maxDice
  sides_pos : 1 ≤ pool.sides
  sides_fits : Word.Fits pool.sides
  fudge_sides : pool.kind = .fudge → pool.sides = 3

instance (pool : Pool) : Decidable pool.WellFormed :=
  decidable_of_iff (1 ≤ pool.count ∧ pool.count ≤ maxDice ∧ 1 ≤ pool.sides ∧
      Word.Fits pool.sides ∧ (pool.kind = .fudge → pool.sides = 3))
    ⟨fun ⟨hpos, hle, hsides, hfits, hfudge⟩ => ⟨hpos, hle, hsides, hfits, hfudge⟩,
      fun ⟨hpos, hle, hsides, hfits, hfudge⟩ => ⟨hpos, hle, hsides, hfits, hfudge⟩⟩

namespace Expr

/-- The expressions that the builders make from numbers of the signed 64-bit range. -/
inductive IsBuilt : Expr → Prop where
  | constant {value : Int} : Word.Fits value → IsBuilt (Build.constant value)
  | dice {count sides : Int} {e : Expr} : Word.Fits sides →
      Build.dice count sides = .ok e → IsBuilt e
  | fudgeDice {count : Int} {e : Expr} : Build.fudgeDice count = .ok e → IsBuilt e
  | selected {selector : Selector} {amount : Int} {operand e : Expr} : IsBuilt operand →
      Build.selected selector amount (some operand) = .ok e → IsBuilt e
  | binary {op : Operator} {left right e : Expr} : IsBuilt left → IsBuilt right →
      Build.binary op (some left) (some right) = .ok e → IsBuilt e
  | repeated {count : Int} {body e : Expr} : IsBuilt body →
      Build.repeated count (some body) = .ok e → IsBuilt e
  | sequence {items : List Expr} {e : Expr} : (∀ item ∈ items, IsBuilt item) →
      Build.sequence (items.map some) = .ok e → IsBuilt e

mutual

/-- The limits at every node: numbers are words, pools and selections hold dice, operands are
numbers, sequences are not inside anything, and no list or sequence comes to too much work. -/
def WellFormed : Expr → Prop
  | constant value => Word.Fits value
  | dice pool => pool.WellFormed
  | selected _ amount pool => pool.WellFormed ∧ 1 ≤ amount ∧ amount ≤ pool.count
  | binary _ left right =>
      left.WellFormed ∧ right.WellFormed ∧ left.yieldsList = false ∧ right.yieldsList = false
  | repeated count body =>
      body.WellFormed ∧ 1 ≤ count ∧ count ≤ maxRepetitions ∧ body.isSequence = false ∧
        count * body.load ≤ maxWork
  | sequence items =>
      AreItems items ∧ 2 ≤ items.length ∧ loadOfAll items ≤ maxWork

def AreItems : List Expr → Prop
  | [] => True
  | item :: rest => item.WellFormed ∧ item.isSequence = false ∧ AreItems rest

end

mutual

def decideWellFormed : (e : Expr) → Decidable e.WellFormed
  | constant value => inferInstanceAs (Decidable (Word.Fits value))
  | dice pool => inferInstanceAs (Decidable pool.WellFormed)
  | selected _ amount pool =>
      inferInstanceAs (Decidable (pool.WellFormed ∧ 1 ≤ amount ∧ amount ≤ pool.count))
  | binary _ left right =>
      have := decideWellFormed left
      have := decideWellFormed right
      inferInstanceAs (Decidable (left.WellFormed ∧ right.WellFormed ∧
        left.yieldsList = false ∧ right.yieldsList = false))
  | repeated count body =>
      have := decideWellFormed body
      inferInstanceAs (Decidable (body.WellFormed ∧ 1 ≤ count ∧ count ≤ maxRepetitions ∧
        body.isSequence = false ∧ count * body.load ≤ maxWork))
  | sequence items =>
      have := decideAreItems items
      inferInstanceAs (Decidable (AreItems items ∧ 2 ≤ items.length ∧ loadOfAll items ≤ maxWork))

def decideAreItems : (items : List Expr) → Decidable (AreItems items)
  | [] => inferInstanceAs (Decidable True)
  | item :: rest =>
      have := decideWellFormed item
      have := decideAreItems rest
      inferInstanceAs (Decidable (item.WellFormed ∧ item.isSequence = false ∧ AreItems rest))

end

instance (e : Expr) : Decidable e.WellFormed := decideWellFormed e

/-- A negative constant stands directly behind a repetition count. -/
inductive RepeatsNegative : Expr → Prop where
  | here {count value : Int} : value < 0 → RepeatsNegative (.repeated count (.constant value))
  | left {op : Operator} {left right : Expr} : RepeatsNegative left →
      RepeatsNegative (.binary op left right)
  | right {op : Operator} {left right : Expr} : RepeatsNegative right →
      RepeatsNegative (.binary op left right)
  | body {count : Int} {body : Expr} : RepeatsNegative body →
      RepeatsNegative (.repeated count body)
  | item {items : List Expr} {item : Expr} : item ∈ items → RepeatsNegative item →
      RepeatsNegative (.sequence items)

end Expr

end DiceFormula
