import DiceFormula.Decimal
import Mathlib.Data.FinEnum
import Mathlib.Data.List.TakeWhile

/-!
# Written numerals

A written numeral consists of digits, behind a minus sign if the number is negative, and stands for
the number that it was written for. Hence no two numbers are written alike, and a number can be
told from a text that its numeral begins, as long as no further digit follows.
-/

namespace DiceFormula.Decimal

/-! ## 1. Digits -/

theorem ofNat_of_lt {n : Nat} (h : n < 10) : ofNat n = [ascii '0' + n.toUInt8] := by
  rw [ofNat, if_pos h]

theorem ofNat_of_ge {n : Nat} (h : 10 ≤ n) :
    ofNat n = ofNat (n / 10) ++ [ascii '0' + (n % 10).toUInt8] := by
  rw [ofNat, if_neg (by omega)]

theorem isDigit_digit : ∀ d < 10, isDigit (ascii '0' + d.toUInt8) = true := by
  decide

theorem digitValue_digit : ∀ d < 10, digitValue (ascii '0' + d.toUInt8) = d := by
  decide

-- The last digit stands at the back, so the induction is on the number and not on its digits.
theorem isDigit_of_mem_ofNat {n : Nat} : ∀ b ∈ ofNat n, isDigit b = true := by
  induction n using Nat.strong_induction_on with
  | h n ih =>
    intro b hb
    by_cases hn : n < 10
    · rw [ofNat_of_lt hn, List.mem_singleton] at hb
      rw [hb]
      exact isDigit_digit n hn
    · rw [ofNat_of_ge (by omega), List.mem_append, List.mem_singleton] at hb
      rcases hb with hb | hb
      · exact ih (n / 10) (by omega) b hb
      · rw [hb]
        exact isDigit_digit (n % 10) (by omega)

theorem ofNat_ne_nil (n : Nat) : ofNat n ≠ [] := by
  by_cases hn : n < 10
  · rw [ofNat_of_lt hn]
    exact List.cons_ne_nil _ _
  · rw [ofNat_of_ge (by omega)]
    exact List.append_ne_nil_of_right_ne_nil _ (List.cons_ne_nil _ _)

/-- A numeral begins with a digit. -/
theorem exists_digit_cons (n : Nat) :
    ∃ b rest, ofNat n = b :: rest ∧ isDigit b = true ∧ ∀ c ∈ rest, isDigit c = true := by
  obtain ⟨b, rest, h⟩ := List.exists_cons_of_ne_nil (ofNat_ne_nil n)
  have hall : ∀ c ∈ b :: rest, isDigit c = true := h ▸ isDigit_of_mem_ofNat
  exact ⟨b, rest, h, hall b List.mem_cons_self, fun c hc => hall c (List.mem_cons_of_mem b hc)⟩

/-! ## 2. Reading back -/

theorem valueOf_append_singleton (digits : Bytes) (b : UInt8) :
    valueOf (digits ++ [b]) = 10 * valueOf digits + digitValue b := by
  simp only [valueOf, List.foldl_append, List.foldl_cons, List.foldl_nil]

theorem valueOf_ofNat (n : Nat) : valueOf (ofNat n) = n := by
  induction n using Nat.strong_induction_on with
  | h n ih =>
    by_cases hn : n < 10
    · rw [ofNat_of_lt hn, ← List.nil_append [_], valueOf_append_singleton, digitValue_digit n hn]
      show 10 * 0 + n = n
      omega
    · rw [ofNat_of_ge (by omega), valueOf_append_singleton, ih (n / 10) (by omega),
        digitValue_digit (n % 10) (by omega)]
      omega

/-- No digit follows, so the digits in front are those of the numeral. -/
theorem takeWhile_ofNat_append (n : Nat) {rest : Bytes} (hrest : rest.takeWhile isDigit = []) :
    (ofNat n ++ rest).takeWhile isDigit = ofNat n := by
  rw [List.takeWhile_append_of_pos isDigit_of_mem_ofNat, hrest, List.append_nil]

theorem not_isBlank_of_isDigit : ∀ b : UInt8, isDigit b = true → isBlank b = false := by
  decide +kernel

theorem splitSign_of_isDigit {b : UInt8} (rest : Bytes) (h : isDigit b = true) :
    splitSign (b :: rest) = (false, b :: rest) := by
  have hsign : ∀ b : UInt8, isDigit b = true → b ≠ ascii '-' ∧ b ≠ ascii '+' := by decide +kernel
  obtain ⟨hminus, hplus⟩ := hsign b h
  simp only [splitSign, beq_iff_eq, hminus, hplus, if_false]

theorem map_lower_of_digits {digits : Bytes} (h : ∀ b ∈ digits, isDigit b = true) :
    digits.map lower = digits := by
  have hlower : ∀ b : UInt8, isDigit b = true → lower b = id b := by decide +kernel
  rw [List.map_congr_left fun b hb => hlower b (h b hb), List.map_id]

/-- Digits behind a sign or none are read if their number fits. -/
theorem read_of_splitSign {text digits : Bytes} {negative : Bool} {value : Int}
    (hsplit : splitSign (text.dropWhile isBlank) = (negative, digits)) (hne : digits ≠ [])
    (hdigits : ∀ b ∈ digits, isDigit b = true)
    (hvalue : (if negative then -(valueOf digits : Int) else valueOf digits) = value) :
    read text = if Word.Fits value then .ok value else .error .tooLarge := by
  have htake : digits.takeWhile isDigit = digits := List.takeWhile_eq_self_iff.mpr hdigits
  unfold read
  rw [hsplit]
  simp only [htake, hvalue]
  rw [if_neg (by rwa [List.isEmpty_iff]), if_neg (Nat.lt_irrefl _), ite_not]

theorem ofInt_of_nonneg {i : Int} (h : 0 ≤ i) : ofInt i = ofNat i.natAbs := by
  rw [ofInt, if_neg (by omega)]

theorem ofInt_of_neg {i : Int} (h : i < 0) : ofInt i = ascii '-' :: ofNat i.natAbs := by
  rw [ofInt, if_pos h]

theorem ofInt_ne_nil (i : Int) : ofInt i ≠ [] := by
  unfold ofInt
  split
  · exact List.cons_ne_nil _ _
  · exact ofNat_ne_nil _

theorem read_ofInt {i : Int} (h : Word.Fits i) : read (ofInt i) = .ok i := by
  have hread {negative : Bool}
      (hsplit : splitSign ((ofInt i).dropWhile isBlank) = (negative, ofNat i.natAbs))
      (hvalue : (if negative then -(i.natAbs : Int) else i.natAbs) = i) : read (ofInt i) = .ok i := by
    rw [← valueOf_ofNat i.natAbs] at hvalue
    rw [read_of_splitSign hsplit (ofNat_ne_nil _) isDigit_of_mem_ofNat hvalue, if_pos h]
  by_cases hi : i < 0
  · have hsplit : splitSign ((ofInt i).dropWhile isBlank) = (true, ofNat i.natAbs) := by
      rw [ofInt_of_neg hi, List.dropWhile_cons, if_neg (by decide)]
      rfl
    apply hread hsplit
    rw [if_pos rfl]
    omega
  · obtain ⟨b, rest, hcons, hb, -⟩ := exists_digit_cons i.natAbs
    have hsplit : splitSign ((ofInt i).dropWhile isBlank) = (false, ofNat i.natAbs) := by
      rw [ofInt_of_nonneg (by omega), hcons, List.dropWhile_cons, not_isBlank_of_isDigit b hb,
        if_neg Bool.false_ne_true, splitSign_of_isDigit rest hb]
    apply hread hsplit
    rw [if_neg Bool.false_ne_true]
    omega

/-! ## 3. Telling numerals apart -/

theorem ofNat_injective {m n : Nat} (h : ofNat m = ofNat n) : m = n := by
  rw [← valueOf_ofNat m, h, valueOf_ofNat]

/-- Of two numerals that begin one text, neither goes on where the other ends. -/
theorem ofNat_append_inj {m n : Nat} {rest others : Bytes} (hrest : rest.takeWhile isDigit = [])
    (hothers : others.takeWhile isDigit = []) (h : ofNat m ++ rest = ofNat n ++ others) :
    m = n ∧ rest = others := by
  have hdigits : ofNat m = ofNat n := by
    rw [← takeWhile_ofNat_append m hrest, h, takeWhile_ofNat_append n hothers]
  rw [hdigits] at h
  exact ⟨ofNat_injective hdigits, List.append_cancel_left h⟩

theorem ofNat_ne_minus (n : Nat) (rest others : Bytes) : ofNat n ++ rest ≠ ascii '-' :: others := by
  obtain ⟨b, digits, hcons, hb, -⟩ := exists_digit_cons n
  rw [hcons]
  intro h
  rw [(List.cons.inj h).1] at hb
  exact absurd hb (by decide)

-- Numerals of numbers with different signs differ in the first byte.
theorem ofInt_append_inj {i j : Int} {rest others : Bytes} (hrest : rest.takeWhile isDigit = [])
    (hothers : others.takeWhile isDigit = []) (h : ofInt i ++ rest = ofInt j ++ others) :
    i = j ∧ rest = others := by
  by_cases hi : i < 0 <;> by_cases hj : j < 0
  · rw [ofInt_of_neg hi, ofInt_of_neg hj] at h
    obtain ⟨habs, heq⟩ := ofNat_append_inj hrest hothers (List.cons.inj h).2
    exact ⟨by omega, heq⟩
  · rw [ofInt_of_neg hi, ofInt_of_nonneg (by omega)] at h
    exact absurd h.symm (ofNat_ne_minus _ _ _)
  · rw [ofInt_of_nonneg (by omega), ofInt_of_neg hj] at h
    exact absurd h (ofNat_ne_minus _ _ _)
  · rw [ofInt_of_nonneg (by omega), ofInt_of_nonneg (by omega)] at h
    obtain ⟨habs, heq⟩ := ofNat_append_inj hrest hothers h
    exact ⟨by omega, heq⟩

theorem ofInt_injective {i j : Int} (h : ofInt i = ofInt j) : i = j := by
  have hnil : ([] : Bytes).takeWhile isDigit = [] := rfl
  exact (ofInt_append_inj hnil hnil (by rw [h])).1

end DiceFormula.Decimal
