import DiceFormula.Outcome.Report

/-!
# Blocks

A report is a text of lines. The block of a list is put together from the reports of its parts as
they stand, each moved to the right as a whole.
-/

namespace DiceFormula

/-- A text with blanks in front of every line. A line begins behind a newline, and at the front of
the text if this is said so. -/
def indentFrom (blanks : Nat) : (begins : Bool) → Bytes → Bytes
  | _, [] => []
  | begins, b :: rest =>
      (if begins then List.replicate blanks (ascii ' ') else []) ++
        b :: indentFrom blanks (b == ascii '\n') rest

def indent (blanks : Nat) (text : Bytes) : Bytes :=
  indentFrom blanks true text

/-- A text of lines, each of which ends in its only newline and is not empty. -/
def IsLined (text : Bytes) : Prop :=
  ∃ lines : List Bytes, (∀ line ∈ lines, line ≠ [] ∧ ascii '\n' ∉ line) ∧
    text = lines.flatMap (· ++ bytes "\n")

namespace Outcome

def title (e : Expr) : Bytes :=
  match e with
  | .repeated count body =>
      bytes "List Expansion: " ++ e.text ++
        bytes "\n  Count: " ++ Decimal.ofInt count ++ bytes " => " ++ Decimal.ofInt count ++
        bytes "\n  Expression: " ++ body.text ++ bytes "\n"
  | .sequence _ => bytes "Sequence: " ++ e.text ++ bytes "\n"
  | _ => []

/-- The reports of the parts of a list, each of them indented and behind a line with its number. -/
def numbered (index : Nat) : List Bytes → Bytes
  | [] => []
  | part :: rest =>
      bytes "  " ++ Decimal.ofNat index ++ bytes ": \n" ++ indent 4 part ++ numbered (index + 1) rest

end Outcome

end DiceFormula
