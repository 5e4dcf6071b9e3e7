import DiceFormula.Bytes

/-!
# Phrases

The tree that a formula is read into before any number in it is interpreted. A phrase keeps the text
and the position of the token that made it, and its parts in the order in which they were written.
-/

namespace DiceFormula

inductive Rule where
  /-- Lists separated by commas. -/
  | sequence
  /-- One expression, or a repetition count and the list that is repeated. -/
  | list
  /-- Two operands of `+`, `-`, `*` or `/`. -/
  | operation
  /-- An expression in parentheses. -/
  | group
  /-- A roll, whose parts are its directives. -/
  | roll
  | directive
  | integer
  deriving DecidableEq, Repr, Inhabited

/-- A phrase: its rule, its text, its position and its parts. -/
inductive Phrase where
  | node (rule : Rule) (text : Bytes) (position : Nat) (parts : List Phrase)
  deriving Repr, BEq, Inhabited

namespace Phrase

/-- Induction over phrases: the statement may be used for every part. -/
@[elab_as_elim, induction_eliminator]
theorem induct {motive : Phrase → Prop}
    (node : ∀ rule text position parts, (∀ part ∈ parts, motive part) →
      motive (node rule text position parts))
    (phrase : Phrase) : motive phrase :=
  @Phrase.rec motive (fun parts => ∀ part ∈ parts, motive part) node
    (fun _ h => absurd h List.not_mem_nil)
    (fun _ _ first rest => List.forall_mem_cons.mpr ⟨first, rest⟩) phrase

def rule : Phrase → Rule
  | node r _ _ _ => r

def text : Phrase → Bytes
  | node _ t _ _ => t

def position : Phrase → Nat
  | node _ _ p _ => p

def parts : Phrase → List Phrase
  | node _ _ _ ps => ps

end Phrase

end DiceFormula
