import DiceFormula.CommandLine.Dialogue

/-!
# Answers

Which answers mean that another roll is wanted, told by letters and not by bytes.
-/

namespace DiceFormula.CommandLine

/-- The small letter of a Latin or Cyrillic capital; every other character is left as it is. No
capital outside of these ranges has one of the letters of the words below as its small letter. -/
def smallLetter (c : Char) : Char :=
  if 'A' ≤ c ∧ c ≤ 'Z' ∨ 'À' ≤ c ∧ c ≤ 'Þ' ∧ c ≠ '×' ∨ 'А' ≤ c ∧ c ≤ 'Я' then
    Char.ofNat (c.toNat + 32)
  else if 'Ѐ' ≤ c ∧ c ≤ 'Џ' then Char.ofNat (c.toNat + 80)
  else c

def assentWords : List (List Char) :=
  [['y'], ['y', 'e', 's'], ['д'], ['д', 'а']]

/-- A line that says yes in letters of either case, with spaces and tabs around the word or not. -/
def IsAssent (line : Bytes) : Prop :=
  ∃ (before after : Bytes) (answer : String), line = before ++ bytes answer ++ after ∧
    (∀ b ∈ before, isPadding b = true) ∧ (∀ b ∈ after, isPadding b = true) ∧
      answer.toList.map smallLetter ∈ assentWords

/-- The words with a Cyrillic capital, whose bytes have no lower case. -/
def missedAssents : List Bytes :=
  [bytes "Д", bytes "Да", bytes "дА", bytes "ДА"]

end DiceFormula.CommandLine
