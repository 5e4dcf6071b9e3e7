/-!
# Signed 64-bit words

Every number of a formula is an integer of the signed 64-bit range. Numbers are kept as `Int`, and
the operations of this file are those of a 64-bit machine: they give the exact result, or nothing
where the machine has none.
-/

namespace DiceFormula.Word

/-- The least number of the range, minus two to the power of 63. -/
def least : Int := -9223372036854775808

/-- The greatest number of the range, one less than two to the power of 63. -/
def greatest : Int := 9223372036854775807

def Fits (i : Int) : Prop :=
  least ≤ i ∧ i ≤ greatest

instance (i : Int) : Decidable (Fits i) :=
  inferInstanceAs (Decidable (_ ∧ _))

def fit (i : Int) : Option Int :=
  if Fits i then some i else none

def add (a b : Int) : Option Int := fit (a + b)

def sub (a b : Int) : Option Int := fit (a - b)

def mul (a b : Int) : Option Int := fit (a * b)

/-- Division rounds toward zero; there is no quotient by zero. -/
def quot (a b : Int) : Option Int :=
  if b = 0 then none else fit (a.tdiv b)

theorem fit_eq_some_iff {i j : Int} : fit i = some j ↔ i = j ∧ Fits j := by
  unfold fit
  split <;> grind

theorem fit_of_fits {i : Int} (h : Fits i) : fit i = some i :=
  if_pos h

end DiceFormula.Word
