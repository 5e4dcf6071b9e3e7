import DiceFormula.Expr.Basic
import DiceFormula.Fault

/-!
# Outcomes

An outcome is a tree that follows the expression it belongs to: each node has its expression, its
value, the dice that were thrown for it, a flag for each of them that tells whether it was kept, and
the outcomes of its parts.
-/

namespace DiceFormula

/-! ## Values -/

inductive Value where
  | number (value : Int)
  | list (items : List Value)
  deriving Repr, BEq, Inhabited

namespace Value

/-- Induction over values: the statement may be used for every item of a list. -/
@[elab_as_elim, induction_eliminator]
theorem induct {motive : Value → Prop} (number : ∀ value, motive (number value))
    (list : ∀ items, (∀ item ∈ items, motive item) → motive (list items))
    (value : Value) : motive value :=
  @Value.rec motive (fun items => ∀ item ∈ items, motive item) number list
    (fun _ h => absurd h List.not_mem_nil)
    (fun _ _ first rest => List.forall_mem_cons.mpr ⟨first, rest⟩) value

def isList : Value → Bool
  | list _ => true
  | number _ => false

def asNumber : Value → Except AccessFault Int
  | number value => .ok value
  | list _ => .error .listAsNumber

def asItems : Value → Except AccessFault (List Value)
  | list items => .ok items
  | number _ => .error .numberAsList

mutual

/-- A value in one line, such as `21` or `[21, [3, 4]]`. -/
def format : Value → Bytes
  | number value => Decimal.ofInt value
  | list items => bytes "[" ++ joinWith (bytes ", ") (formats items) ++ bytes "]"

def formats : List Value → List Bytes
  | [] => []
  | item :: rest => item.format :: formats rest

end

theorem formats_eq_map (items : List Value) : formats items = items.map format := by
  induction items with
  | nil => simp [formats]
  | cons item rest ih => simp [formats, ih]

end Value

/-! ## Dice -/

/-- A thrown die: the face that it shows and its number of sides. -/
structure Roll where
  value : Int
  sides : Int
  deriving DecidableEq, Repr, Inhabited

/-- The faces of several dice in one line, such as `[13, 8]`. -/
def formatFaces (rolls : List Roll) : Bytes :=
  bytes "[" ++ joinWith (bytes ", ") (rolls.map fun roll => Decimal.ofInt roll.value) ++ bytes "]"

def keptRolls (rolls : List Roll) (kept : List Bool) : List Roll :=
  ((rolls.zip kept).filter (·.2)).map (·.1)

/-! ## Trees -/

inductive Outcome where
  | node (expr : Expr) (value : Value) (rolls : List Roll) (kept : List Bool)
      (children : List Outcome)
  deriving Repr, Inhabited

namespace Outcome

/-- Induction over outcomes: the statement may be used for every child. -/
@[elab_as_elim, induction_eliminator]
theorem induct {motive : Outcome → Prop}
    (node : ∀ expr value rolls kept children, (∀ child ∈ children, motive child) →
      motive (node expr value rolls kept children))
    (outcome : Outcome) : motive outcome :=
  @Outcome.rec motive (fun children => ∀ child ∈ children, motive child) node
    (fun _ h => absurd h List.not_mem_nil)
    (fun _ _ first rest => List.forall_mem_cons.mpr ⟨first, rest⟩) outcome

def expr : Outcome → Expr
  | node e _ _ _ _ => e

def value : Outcome → Value
  | node _ v _ _ _ => v

def rolls : Outcome → List Roll
  | node _ _ rs _ _ => rs

def kept : Outcome → List Bool
  | node _ _ _ ks _ => ks

def children : Outcome → List Outcome
  | node _ _ _ _ cs => cs

end Outcome

end DiceFormula
