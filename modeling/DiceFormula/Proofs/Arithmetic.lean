import DiceFormula.Expr.Arithmetic
import DiceFormula.Expr.Exact

/-!
# Checked arithmetic is exact

The tests in front of an operation are word operations, and on words they never fail themselves.
Each of them tells whether the exact result is a word, so an operator succeeds with the exact result
or not at all.
-/

namespace DiceFormula.Operator

variable {left right : Int}

/-! ## 1. Quotients -/

theorem tdiv_lt_iff {a b c : Int} (ha : 0 ≤ a) (hb : 0 < b) : a.tdiv b < c ↔ a < c * b := by
  rw [Int.tdiv_eq_ediv_of_nonneg ha, Int.ediv_lt_iff_lt_mul hb]

theorem lt_neg_tdiv_iff {a b c : Int} (ha : 0 ≤ a) (hb : 0 < b) :
    c < (-a).tdiv b ↔ c * b < -a := by
  have hflip := @tdiv_lt_iff a b (-c) ha hb
  rw [Int.neg_mul] at hflip
  rw [Int.neg_tdiv]
  omega

theorem lt_tdiv_iff_of_neg {a b c : Int} (ha : 0 ≤ a) (hb : b < 0) :
    c < a.tdiv b ↔ a < c * b := by
  have hflip := @tdiv_lt_iff a (-b) (-c) ha (by omega)
  rw [Int.neg_mul_neg] at hflip
  rw [← Int.neg_neg b, Int.tdiv_neg, Int.neg_neg]
  omega

/-- Only one quotient of words is no word. -/
theorem fits_tdiv_iff (hl : Word.Fits left) (hr : right ≠ 0) :
    Word.Fits (left.tdiv right) ↔ ¬ (left = Word.least ∧ right = -1) := by
  have hsize := Int.natAbs_tdiv_le_natAbs left right
  constructor
  · rintro hfits ⟨rfl, rfl⟩
    exact absurd hfits (by decide)
  · intro hne
    by_cases hleast : left = Word.least
    · -- A divisor of two or more halves the dividend at least.
      subst hleast
      by_cases hone : right = 1
      · rw [hone, Int.tdiv_one]
        exact hl
      · have htwo : 2 ≤ right.natAbs := by omega
        have hhalf : (Word.least.tdiv right).natAbs ≤ Word.least.natAbs / 2 := by
          rw [Int.natAbs_tdiv]
          exact Nat.div_le_div_left htwo (by decide)
        simp only [Word.Fits, Word.least, Word.greatest] at hhalf ⊢
        omega
    · simp only [Word.Fits, Word.least, Word.greatest] at hl hleast ⊢
      omega

theorem quot_eq_fit {a b : Int} (hb : b ≠ 0) : Word.quot a b = Word.fit (a.tdiv b) :=
  if_neg hb

/-! ## 2. The tests -/

-- Each branch of a test compares an operand with a bound. That the bound is a word is shown first,
-- then that the comparison tells whether the result is one.

-- A test compares an operand with a bound, which is itself found by a word operation.
theorem test_eq {P : Int → Prop} [DecidablePred P] {bound result : Int} (hbound : Word.Fits bound)
    (h : P bound ↔ ¬ Word.Fits result) :
    (Word.fit bound).map (fun b => decide (P b)) = some (decide ¬ Word.Fits result) := by
  rw [Word.fit_of_fits hbound, Option.map_some, Option.some.injEq, decide_eq_decide]
  exact h

theorem sumOverflows_eq (hl : Word.Fits left) (hr : Word.Fits right) :
    sumOverflows left right = some (decide ¬ Word.Fits (left + right)) := by
  unfold sumOverflows Word.sub
  simp only [Word.Fits, Word.least, Word.greatest] at hl hr
  by_cases hpos : 0 < right
  · rw [if_pos hpos]
    apply test_eq <;> simp only [Word.Fits, Word.least, Word.greatest] <;> omega
  rw [if_neg hpos]
  by_cases hneg : right < 0
  · rw [if_pos hneg]
    apply test_eq <;> simp only [Word.Fits, Word.least, Word.greatest] <;> omega
  · rw [if_neg hneg, Option.some.injEq, eq_comm, decide_eq_false_iff_not, not_not]
    simp only [Word.Fits, Word.least, Word.greatest]
    omega

theorem differenceOverflows_eq (hl : Word.Fits left) (hr : Word.Fits right) :
    differenceOverflows left right = some (decide ¬ Word.Fits (left - right)) := by
  unfold differenceOverflows Word.add
  simp only [Word.Fits, Word.least, Word.greatest] at hl hr
  by_cases hneg : right < 0
  · rw [if_pos hneg]
    apply test_eq <;> simp only [Word.Fits, Word.least, Word.greatest] <;> omega
  rw [if_neg hneg]
  by_cases hpos : 0 < right
  · rw [if_pos hpos]
    apply test_eq <;> simp only [Word.Fits, Word.least, Word.greatest] <;> omega
  · rw [if_neg hpos, Option.some.injEq, eq_comm, decide_eq_false_iff_not, not_not]
    simp only [Word.Fits, Word.least, Word.greatest]
    omega

-- Both bounds of the range have quotients by every divisor that a product is tested with.
theorem fits_greatest_tdiv (hr : right ≠ 0) : Word.Fits (Word.greatest.tdiv right) :=
  (fits_tdiv_iff (by decide) hr).mpr fun h => absurd h.1 (by decide)

theorem fits_least_tdiv (hr : 0 < right) : Word.Fits (Word.least.tdiv right) :=
  (fits_tdiv_iff (by decide) (by omega)).mpr fun h => absurd h.2 (by omega)

theorem productOverflows_eq (left right : Int) :
    productOverflows left right = some (decide ¬ Word.Fits (left * right)) := by
  have hgreatest : (0 : Int) ≤ Word.greatest := by decide
  have hleast : (0 : Int) ≤ -Word.least := by decide
  unfold productOverflows
  by_cases hl : 0 < left
  · rw [if_pos hl]
    by_cases hr : 0 < right
    · have hproduct : 0 < left * right := Int.mul_pos hl hr
      rw [if_pos hr, quot_eq_fit (by omega)]
      refine test_eq (fits_greatest_tdiv (by omega)) ?_
      rw [tdiv_lt_iff hgreatest hr]
      simp only [Word.Fits, Word.least, Word.greatest]
      omega
    · have hproduct : right * left ≤ 0 := Int.mul_nonpos_of_nonpos_of_nonneg (by omega) (by omega)
      rw [if_neg hr, quot_eq_fit (by omega), Int.mul_comm]
      refine test_eq (fits_least_tdiv hl) ?_
      rw [← Int.neg_neg Word.least, lt_neg_tdiv_iff hleast hl]
      simp only [Word.Fits, Word.least, Word.greatest]
      omega
  rw [if_neg hl]
  by_cases hneg : left < 0
  · rw [if_pos hneg]
    by_cases hr : 0 < right
    · have hproduct : left * right ≤ 0 := Int.mul_nonpos_of_nonpos_of_nonneg (by omega) (by omega)
      rw [if_pos hr, quot_eq_fit (by omega)]
      refine test_eq (fits_least_tdiv hr) ?_
      rw [← Int.neg_neg Word.least, lt_neg_tdiv_iff hleast hr]
      simp only [Word.Fits, Word.least, Word.greatest]
      omega
    · have hproduct : 0 ≤ right * left := Int.mul_nonneg_of_nonpos_of_nonpos (by omega) (by omega)
      rw [if_neg hr, quot_eq_fit (by omega), Int.mul_comm]
      refine test_eq (fits_greatest_tdiv (by omega)) ?_
      rw [lt_tdiv_iff_of_neg hgreatest hneg]
      simp only [Word.Fits, Word.least, Word.greatest]
      omega
  · obtain rfl : left = 0 := by omega
    rw [if_neg hneg, Int.zero_mul]
    rfl

theorem quotientOverflows_eq (hl : Word.Fits left) (hr : right ≠ 0) :
    quotientOverflows left right = decide ¬ Word.Fits (left.tdiv right) := by
  have hiff := fits_tdiv_iff hl hr
  rw [quotientOverflows, Bool.eq_iff_iff, decide_eq_true_iff, hiff, not_not, Bool.and_eq_true,
    beq_iff_eq, beq_iff_eq]

/-! ## 3. Operators -/

theorem apply_eq_ok_iff_compute {op : Operator} {result : Int} :
    op.apply left right = .ok result ↔ op.compute left right = some (.ok result) := by
  unfold apply
  cases op.compute left right with
  | none => exact ⟨fun h => (nomatch h), fun h => (nomatch h)⟩
  | some outcome => rw [Option.getD_some, Option.some.injEq]

-- Whatever a test says, a result behind it is an exact one.
theorem eq_of_tested {test : Option Bool} {fault : EvaluationFault} {exact result : Int}
    (h : (test.bind fun outside =>
        if outside then some (.error fault)
        else (Word.fit exact).map (Except.ok : Int → Except EvaluationFault Int)) =
      some (.ok result)) :
    exact = result ∧ Word.Fits result := by
  obtain ⟨outside, -, htested⟩ := Option.bind_eq_some_iff.mp h
  cases outside with
  | true => exact nomatch Option.some.inj htested
  | false =>
    obtain ⟨value, hvalue, hok⟩ := Option.map_eq_some_iff.mp htested
    obtain rfl := Except.ok.inj hok
    exact Word.fit_eq_some_iff.mp hvalue

/-- A result is the exact one, whether or not the operands are words. -/
theorem exactResult?_of_apply {op : Operator} {result : Int} (h : op.apply left right = .ok result) :
    op.exactResult? left right = some result ∧ Word.Fits result := by
  rw [apply_eq_ok_iff_compute] at h
  cases op with
  | add =>
    obtain ⟨rfl, hfits⟩ := eq_of_tested h
    exact ⟨rfl, hfits⟩
  | sub =>
    obtain ⟨rfl, hfits⟩ := eq_of_tested h
    exact ⟨rfl, hfits⟩
  | mul =>
    obtain ⟨rfl, hfits⟩ := eq_of_tested h
    exact ⟨rfl, hfits⟩
  | div =>
    rw [compute] at h
    by_cases hzero : right = 0
    · rw [if_pos hzero] at h
      exact nomatch Option.some.inj h
    · rw [if_neg hzero, quot_eq_fit hzero] at h
      obtain ⟨rfl, hfits⟩ := @eq_of_tested (some (quotientOverflows left right)) _ _ _ h
      exact ⟨if_neg hzero, hfits⟩

-- A test that tells whether the exact result is a word decides between the result and the complaint.
theorem tested_eq {test : Option Bool} {fault : EvaluationFault} {exact : Int}
    (htest : test = some (decide ¬ Word.Fits exact)) :
    (test.bind fun outside =>
        if outside then some (.error fault)
        else (Word.fit exact).map (Except.ok : Int → Except EvaluationFault Int)) =
      some (if Word.Fits exact then .ok exact else .error fault) := by
  rw [htest, Option.bind_some]
  by_cases hfits : Word.Fits exact
  · rw [if_neg (by simp [hfits]), if_pos hfits, Word.fit_of_fits hfits, Option.map_some]
  · rw [if_pos (by simp [hfits]), if_neg hfits]

/-- On words an operator that has an exact result is computed without leaving the words, and gives
this result or the complaint that it is no word. -/
theorem compute_of_exactResult? {op : Operator} {exact : Int} (hl : Word.Fits left)
    (hr : Word.Fits right) (h : op.exactResult? left right = some exact) :
    op.compute left right =
      some (if Word.Fits exact then .ok exact else .error (op.overflow left right)) := by
  cases op with
  | add =>
    obtain rfl := Option.some.inj h
    exact tested_eq (sumOverflows_eq hl hr)
  | sub =>
    obtain rfl := Option.some.inj h
    exact tested_eq (differenceOverflows_eq hl hr)
  | mul =>
    obtain rfl := Option.some.inj h
    exact tested_eq (productOverflows_eq left right)
  | div =>
    rw [exactResult?] at h
    by_cases hzero : right = 0
    · rw [if_pos hzero] at h
      exact nomatch h
    · rw [if_neg hzero] at h
      obtain rfl := Option.some.inj h
      rw [compute, if_neg hzero, quot_eq_fit hzero]
      exact tested_eq (congrArg some (quotientOverflows_eq hl hzero))

/-- On words an operator succeeds if and only if its exact result is a word. -/
theorem apply_eq_ok_iff {op : Operator} (hl : Word.Fits left) (hr : Word.Fits right) {result : Int} :
    op.apply left right = .ok result ↔ op.exactResult? left right = some result ∧ Word.Fits result := by
  refine ⟨exactResult?_of_apply, ?_⟩
  rintro ⟨hexact, hfits⟩
  rw [apply_eq_ok_iff_compute, compute_of_exactResult? hl hr hexact, if_pos hfits]

/-! ## 4. Words only -/

theorem exactResult?_eq_none_iff {op : Operator} :
    op.exactResult? left right = none ↔ op = .div ∧ right = 0 := by
  cases op <;> simp [exactResult?]

/-- On words neither the tests of an operator nor the operation behind them ever leaves the words or
divides by zero. The operator gives its exact result if there is one and it is a word, and fails
otherwise: only division by zero has no exact result. -/
theorem compute_exact (op : Operator) (hl : Word.Fits left) (hr : Word.Fits right) :
    op.compute left right = some (op.apply left right) ∧
      (op.exactResult? left right = none ↔ op = .div ∧ right = 0) ∧
      op.apply left right =
        match op.exactResult? left right with
        | none => .error .divisionByZero
        | some exact => if Word.Fits exact then .ok exact else .error (op.overflow left right) := by
  have hcompute : op.compute left right = some
      (match op.exactResult? left right with
        | none => .error .divisionByZero
        | some exact =>
          if Word.Fits exact then .ok exact else .error (op.overflow left right)) := by
    cases hexact : op.exactResult? left right with
    | none =>
      obtain ⟨rfl, hzero⟩ := exactResult?_eq_none_iff.mp hexact
      rw [compute, if_pos hzero]
    | some exact => exact compute_of_exactResult? hl hr hexact
  have happly : some (op.apply left right) = op.compute left right := by
    rw [apply, hcompute, Option.getD_some]
  refine ⟨happly.symm, exactResult?_eq_none_iff, ?_⟩
  exact Option.some.inj (happly.trans hcompute)

/-- The two edges of the range at which the machine has no result. -/
theorem compute_exact_least :
    Word.Fits Word.least ∧ Word.Fits (-1) ∧
      mul.compute Word.least (-1) = some (.error (.overflowMultiplying Word.least (-1))) ∧
      div.compute Word.least (-1) = some (.error .overflowDividing) := by
  have hleast : Word.Fits Word.least := by decide
  have hone : Word.Fits (-1) := by decide
  obtain ⟨hmul, -, hproduct⟩ := compute_exact mul hleast hone
  obtain ⟨hdiv, -, hquotient⟩ := compute_exact div hleast hone
  rw [hmul, hproduct, hdiv, hquotient]
  exact ⟨hleast, hone, rfl, rfl⟩

end DiceFormula.Operator
