import DiceFormula.Decimal

/-!
# Expressions

What a formula means: constants, pools of dice, selections from a pool, arithmetic, repetition and
sequences. Any tree can be written down here; `DiceFormula.Expr.Build` makes only those within the
limits.
-/

namespace DiceFormula

/-! ## The words of a formula -/

inductive Operator where
  | add
  | sub
  | mul
  | div
  deriving DecidableEq, Repr, Inhabited

namespace Operator

def symbol : Operator → UInt8
  | add => ascii '+'
  | sub => ascii '-'
  | mul => ascii '*'
  | div => ascii '/'

def ofSymbol? (text : Bytes) : Option Operator :=
  [add, sub, mul, div].find? fun op => text == [op.symbol]

@[simp] theorem ofSymbol?_symbol (op : Operator) : ofSymbol? [op.symbol] = some op := by
  cases op <;> decide

end Operator

inductive Selector where
  | keepHighest
  | keepLowest
  | dropHighest
  | dropLowest
  deriving DecidableEq, Repr, Inhabited

namespace Selector

def letters : Selector → Bytes
  | keepHighest => bytes "kh"
  | keepLowest => bytes "kl"
  | dropHighest => bytes "dh"
  | dropLowest => bytes "dl"

/-- The selector that is written with two lower-case letters. -/
def ofLetters? (text : Bytes) : Option Selector :=
  [keepHighest, keepLowest, dropHighest, dropLowest].find? fun s => text == s.letters

/-- Dropping the lowest dice keeps the highest ones. -/
def prefersHigh : Selector → Bool
  | keepHighest | dropLowest => true
  | keepLowest | dropHighest => false

end Selector

/-! ## Pools of dice -/

inductive DieKind where
  /-- Faces from one to the number of sides. -/
  | standard
  /-- Faces minus one, zero and one. -/
  | fudge
  deriving DecidableEq, Repr, Inhabited

structure Pool where
  count : Int
  sides : Int
  kind : DieKind := .standard
  deriving DecidableEq, Repr, Inhabited

namespace Pool

def leastFace (pool : Pool) : Int :=
  match pool.kind with
  | .standard => 1
  | .fudge => -1

def greatestFace (pool : Pool) : Int :=
  match pool.kind with
  | .standard => pool.sides
  | .fudge => 1

def text (pool : Pool) : Bytes :=
  let sides := match pool.kind with
    | .standard => Decimal.ofInt pool.sides
    | .fudge => bytes "F"
  Decimal.ofInt pool.count ++ bytes "d" ++ sides

end Pool

/-- How many dice of a pool a selector leaves. -/
def Selector.leaves (selector : Selector) (amount : Int) (pool : Pool) : Int :=
  match selector with
  | .keepHighest | .keepLowest => amount
  | .dropHighest | .dropLowest => pool.count - amount

/-! ## Expressions -/

inductive Expr where
  | constant (value : Int)
  | dice (pool : Pool)
  /-- Some dice of a pool, chosen by rank. -/
  | selected (selector : Selector) (amount : Int) (pool : Pool)
  | binary (op : Operator) (left right : Expr)
  /-- A list of independent evaluations of one body. -/
  | repeated (count : Int) (body : Expr)
  | sequence (items : List Expr)
  deriving Repr, BEq, Inhabited

namespace Expr

/-- Induction over expressions: the statement may be used for every item of a sequence. -/
@[elab_as_elim, induction_eliminator]
theorem induct {motive : Expr → Prop} (constant : ∀ value, motive (constant value))
    (dice : ∀ pool, motive (dice pool))
    (selected : ∀ selector amount pool, motive (selected selector amount pool))
    (binary : ∀ op left right, motive left → motive right → motive (binary op left right))
    (repeated : ∀ count body, motive body → motive (repeated count body))
    (sequence : ∀ items, (∀ item ∈ items, motive item) → motive (sequence items))
    (e : Expr) : motive e :=
  @Expr.rec motive (fun items => ∀ item ∈ items, motive item) constant dice selected binary
    repeated sequence (fun _ h => absurd h List.not_mem_nil)
    (fun _ _ first rest => List.forall_mem_cons.mpr ⟨first, rest⟩) e

/-- The value of a repetition or of a sequence is a list. -/
def yieldsList : Expr → Bool
  | repeated _ _ | sequence _ => true
  | constant _ | dice _ | selected _ _ _ | binary _ _ _ => false

def isSequence : Expr → Bool
  | sequence _ => true
  | _ => false

mutual

/-- The canonical text: every operation in parentheses, every pool with its count. -/
def text : Expr → Bytes
  | constant value => Decimal.ofInt value
  | dice pool => pool.text
  | selected selector amount pool =>
      pool.text ++ bytes " " ++ selector.letters ++ Decimal.ofInt amount
  | binary op left right =>
      bytes "(" ++ left.text ++ bytes " " ++ [op.symbol] ++ bytes " " ++ right.text ++ bytes ")"
  | repeated count body => Decimal.ofInt count ++ bytes " " ++ body.text
  | sequence items => joinWith (bytes ", ") (texts items)

def texts : List Expr → List Bytes
  | [] => []
  | item :: rest => item.text :: texts rest

end

theorem texts_eq_map (items : List Expr) : texts items = items.map text := by
  induction items with
  | nil => simp [texts]
  | cons item rest ih => simp [texts, ih]

end Expr

end DiceFormula
