/-!
# Calling again

Reading may stop half-way through its input and be taken up again where it stopped. Such a reader is
a function from what is left to an answer and to what is left then.
-/

namespace DiceFormula

variable {α β : Type}

def calls (reader : α → β × α) : (times : Nat) → α → List β
  | 0, _ => []
  | times + 1, left => (reader left).1 :: calls reader times (reader left).2

def leftAfter (reader : α → β × α) : (times : Nat) → α → α
  | 0, left => left
  | times + 1, left => leftAfter reader times (reader left).2

theorem length_calls (reader : α → β × α) (times : Nat) (left : α) :
    (calls reader times left).length = times := by
  induction times generalizing left with
  | zero => rfl
  | succ times ih => rw [calls, List.length_cons, ih]

theorem getElem?_calls (reader : α → β × α) {times i : Nat} (left : α) (h : i < times) :
    (calls reader times left)[i]? = some (reader (leftAfter reader i left)).1 := by
  induction times generalizing left i with
  | zero => omega
  | succ times ih =>
    cases i with
    | zero => rfl
    | succ i =>
      rw [calls, List.getElem?_cons_succ, ih _ (by omega)]
      rfl

/-- The answer of one of the calls, which are counted from zero. -/
def answerAt (reader : α → β × α) (i : Nat) (left : α) : β :=
  (reader (leftAfter reader i left)).1

theorem leftAfter_succ (reader : α → β × α) (i : Nat) (left : α) :
    leftAfter reader (i + 1) left = (reader (leftAfter reader i left)).2 := by
  induction i generalizing left with
  | zero => rfl
  | succ i ih => exact ih (reader left).2

theorem leftAfter_add (reader : α → β × α) (i j : Nat) (left : α) :
    leftAfter reader (i + j) left = leftAfter reader j (leftAfter reader i left) := by
  induction j with
  | zero => rfl
  | succ j ih => rw [leftAfter_succ, ← ih, ← Nat.add_assoc, leftAfter_succ]

theorem calls_eq_map_answerAt (reader : α → β × α) (times : Nat) (left : α) :
    calls reader times left = (List.range times).map (answerAt reader · left) := by
  apply List.ext_getElem? fun i => ?_
  by_cases h : i < times
  · rw [getElem?_calls reader left h, List.getElem?_map, List.getElem?_range h]
    rfl
  · have hcalls : (calls reader times left).length ≤ i := by
      rw [length_calls]
      omega
    have hrange : ((List.range times).map (answerAt reader · left)).length ≤ i := by
      rw [List.length_map, List.length_range]
      omega
    rw [List.getElem?_eq_none hcalls, List.getElem?_eq_none hrange]

/-- A call that leaves everything is repeated for ever. -/
theorem leftAfter_of_fixed {reader : α → β × α} {i later : Nat} {left : α}
    (h : (reader (leftAfter reader i left)).2 = leftAfter reader i left) (hlater : i ≤ later) :
    leftAfter reader later left = leftAfter reader i left := by
  induction hlater with
  | refl => rfl
  | step _ ih => rw [leftAfter_succ, ih, h]

end DiceFormula
