import DiceFormula.Expr.WellFormed
import Mathlib.Algebra.Order.Ring.Int
import Mathlib.Tactic.Linarith

/-!
# What the builders make

Each builder succeeds under conditions on its arguments, and then makes the node that it is named
for. Together they make exactly the well-formed expressions: the work that is counted in words is
the load, as long as that load is a word, and the limit on work keeps it one.
-/

namespace DiceFormula.Expr

/-! ## 1. Builders -/

theorem ok_eq_ok_iff {e other : Expr} :
    (Except.ok e : Except MeaningFault Expr) = .ok other ↔ other = e := by
  rw [Except.ok.injEq]
  exact eq_comm

theorem legalCount_eq_ok_iff {count : Int} :
    Build.legalCount count = .ok () ↔ 1 ≤ count ∧ count ≤ maxDice := by
  unfold Build.legalCount
  constructor
  · intro h
    split at h
    next => exact nomatch h
    next =>
      split at h
      next => exact nomatch h
      next => omega
  · rintro ⟨hpos, hle⟩
    rw [if_neg (by omega), if_neg (by omega)]

theorem dice_eq_ok_iff {count sides : Int} {e : Expr} :
    Build.dice count sides = .ok e ↔
      (1 ≤ count ∧ count ≤ maxDice) ∧ 1 ≤ sides ∧ e = .dice { count := count, sides := sides } := by
  rw [← legalCount_eq_ok_iff]
  unfold Build.dice
  cases Build.legalCount count with
  | error fault => exact ⟨fun h => (nomatch h), fun h => (nomatch h.1)⟩
  | ok =>
    show (if sides ≤ 0 then _ else _) = _ ↔ _
    by_cases hs : sides ≤ 0
    · rw [if_pos hs]
      exact ⟨fun h => (nomatch h), fun h => absurd h.2.1 (by omega)⟩
    · rw [if_neg hs, Except.ok.injEq]
      exact ⟨fun h => ⟨rfl, by omega, h.symm⟩, fun h => h.2.2.symm⟩

theorem fudgeDice_eq_ok_iff {count : Int} {e : Expr} :
    Build.fudgeDice count = .ok e ↔
      (1 ≤ count ∧ count ≤ maxDice) ∧ e = .dice { count := count, sides := 3, kind := .fudge } := by
  rw [← legalCount_eq_ok_iff]
  unfold Build.fudgeDice
  cases Build.legalCount count with
  | error fault => exact ⟨fun h => (nomatch h), fun h => (nomatch h.1)⟩
  | ok => exact ⟨fun h => ⟨rfl, (Except.ok.inj h).symm⟩, fun h => congrArg _ h.2.symm⟩

theorem selected_eq_ok_iff {selector : Selector} {amount : Int} {operand e : Expr} :
    Build.selected selector amount (some operand) = .ok e ↔
      ∃ pool, operand = .dice pool ∧ 1 ≤ amount ∧ amount ≤ pool.count ∧
        e = .selected selector amount pool := by
  unfold Build.selected
  split
  next pool hoperand =>
    obtain rfl := Option.some.inj hoperand
    by_cases hpos : amount ≤ 0
    · rw [if_pos hpos]
      refine ⟨fun h => (nomatch h), ?_⟩
      rintro ⟨_, _, h, _⟩
      omega
    · rw [if_neg hpos]
      by_cases hle : pool.count < amount
      · rw [if_pos hle]
        refine ⟨fun h => (nomatch h), ?_⟩
        rintro ⟨_, heq, _, h, _⟩
        obtain rfl := Expr.dice.inj heq
        omega
      · rw [if_neg hle]
        constructor
        · intro h
          exact ⟨pool, rfl, by omega, by omega, (Except.ok.inj h).symm⟩
        · rintro ⟨_, heq, _, _, rfl⟩
          obtain rfl := Expr.dice.inj heq
          rfl
  next hno =>
    refine ⟨fun h => (nomatch h), ?_⟩
    rintro ⟨pool, rfl, _⟩
    exact absurd rfl (hno pool)

theorem binary_eq_ok_iff {op : Operator} {left right e : Expr} :
    Build.binary op (some left) (some right) = .ok e ↔
      left.yieldsList = false ∧ right.yieldsList = false ∧ e = .binary op left right := by
  unfold Build.binary
  dsimp only
  cases left.yieldsList <;> cases right.yieldsList <;>
    simp only [ok_eq_ok_iff, reduceCtorEq, Bool.false_eq_true, if_true, if_false, true_and, false_and]

theorem repeated_eq_ok_iff {count : Int} {body e : Expr} :
    Build.repeated count (some body) = .ok e ↔
      (1 ≤ count ∧ count ≤ maxRepetitions) ∧ body.isSequence = false ∧
        body.isTooMuchWork count = false ∧ e = .repeated count body := by
  unfold Build.repeated
  by_cases hpos : count ≤ 0
  · rw [if_pos hpos]
    exact ⟨fun h => (nomatch h), fun h => absurd h.1.1 (by omega)⟩
  by_cases hle : maxRepetitions < count
  · rw [if_neg hpos, if_pos hle]
    exact ⟨fun h => (nomatch h), fun h => absurd h.1.2 (by omega)⟩
  rw [if_neg hpos, if_neg hle]
  have hcount : 1 ≤ count ∧ count ≤ maxRepetitions := by omega
  dsimp only
  cases body.isSequence <;> cases body.isTooMuchWork count <;>
    simp only [ok_eq_ok_iff, hcount, reduceCtorEq, Bool.false_eq_true, Bool.true_eq_false, if_true,
      if_false, true_and, false_and, and_false, and_self]

theorem item?_eq_some_iff {item other : Expr} :
    Build.item? (some item) = some other ↔ item.isSequence = false ∧ other = item := by
  unfold Build.item?
  dsimp only
  cases item.isSequence
  · rw [if_neg Bool.false_ne_true, Option.some.injEq, eq_self, true_and]
    exact eq_comm
  · exact ⟨fun h => (nomatch h), fun h => (nomatch h.1)⟩

theorem mapM_item?_eq_some_iff {items others : List Expr} :
    (items.map some).mapM Build.item? = some others ↔
      (∀ item ∈ items, item.isSequence = false) ∧ others = items := by
  induction items generalizing others with
  | nil =>
    rw [List.map_nil, List.mapM_nil]
    exact ⟨fun h => ⟨fun item hitem => (nomatch hitem), (Option.some.inj h).symm⟩,
      fun h => congrArg some h.2.symm⟩
  | cons item items ih =>
    rw [List.map_cons, List.mapM_cons]
    simp only [Option.bind_eq_bind, Option.bind_eq_some_iff, item?_eq_some_iff, ih,
      Option.pure_def, Option.some.injEq, List.forall_mem_cons]
    constructor
    · rintro ⟨_, ⟨hitem, rfl⟩, _, ⟨hitems, rfl⟩, rfl⟩
      exact ⟨⟨hitem, hitems⟩, rfl⟩
    · rintro ⟨⟨hitem, hitems⟩, rfl⟩
      exact ⟨item, ⟨hitem, rfl⟩, items, ⟨hitems, rfl⟩, rfl⟩

theorem sequence_eq_ok_iff {items : List Expr} {e : Expr} :
    Build.sequence (items.map some) = .ok e ↔
      2 ≤ items.length ∧ (∀ item ∈ items, item.isSequence = false) ∧
        (Expr.sequence items).isTooMuchWork 1 = false ∧ e = .sequence items := by
  unfold Build.sequence
  rw [List.length_map]
  by_cases hlength : items.length < 2
  · rw [if_pos hlength]
    exact ⟨fun h => (nomatch h), fun h => absurd h.1 (by omega)⟩
  rw [if_neg hlength]
  split
  next hnone =>
    refine ⟨fun h => (nomatch h), fun h => ?_⟩
    rw [mapM_item?_eq_some_iff.mpr ⟨h.2.1, rfl⟩] at hnone
    exact nomatch hnone
  next others hsome =>
    obtain ⟨hitems, rfl⟩ := mapM_item?_eq_some_iff.mp hsome
    have hlength : 2 ≤ others.length := by omega
    dsimp only
    cases (Expr.sequence others).isTooMuchWork 1
    · rw [if_neg Bool.false_ne_true, ok_eq_ok_iff]
      exact ⟨fun h => ⟨hlength, hitems, rfl, h⟩, fun h => h.2.2.2⟩
    · exact ⟨fun h => (nomatch h), fun h => (nomatch h.2.2.1)⟩

/-! ## 2. Work and load -/

theorem areItems_iff {items : List Expr} :
    AreItems items ↔ ∀ item ∈ items, item.WellFormed ∧ item.isSequence = false := by
  induction items with
  | nil => exact ⟨fun _ item hitem => (nomatch hitem), fun _ => trivial⟩
  | cons item items ih => rw [AreItems, ih, List.forall_mem_cons, and_assoc]

-- No number of dice comes near the bounds of the range.
theorem fits_of_le_maxDice {amount : Int} (hpos : 1 ≤ amount) (hle : amount ≤ maxDice) :
    Word.Fits amount := by
  simp only [Word.Fits, Word.least, Word.greatest, maxDice] at hle ⊢
  omega

theorem fits_of_le_count {pool : Pool} (h : pool.WellFormed) {amount : Int} (hpos : 1 ≤ amount)
    (hle : amount ≤ pool.count) : Word.Fits amount :=
  fits_of_le_maxDice hpos (le_trans hle h.count_le)

theorem leastFace_le_greatestFace {pool : Pool} (h : pool.WellFormed) :
    pool.leastFace ≤ pool.greatestFace := by
  have hsides := h.sides_pos
  unfold Pool.leastFace Pool.greatestFace
  cases pool.kind with
  | standard => exact hsides
  | fudge => exact (by decide : (-1 : Int) ≤ 1)

theorem leaves_bounds {selector : Selector} {amount : Int} {pool : Pool} (hpos : 1 ≤ amount)
    (hle : amount ≤ pool.count) :
    0 ≤ selector.leaves amount pool ∧ selector.leaves amount pool ≤ pool.count := by
  cases selector <;> simp only [Selector.leaves] <;> omega

theorem length_le_loadOfAll {items : List Expr} (h : ∀ item ∈ items, 1 ≤ item.load) :
    (items.length : Int) ≤ loadOfAll items := by
  induction items with
  | nil => exact Int.le_refl 0
  | cons item items ih =>
    obtain ⟨hitem, hitems⟩ := List.forall_mem_cons.mp h
    have hrest := ih hitems
    rw [loadOfAll, List.length_cons]
    omega

theorem load_pos {e : Expr} (h : e.WellFormed) : 1 ≤ e.load := by
  induction e with
  | constant => exact Int.le_refl 1
  | dice pool => exact Pool.WellFormed.count_pos h
  | selected selector amount pool => exact h.1.count_pos
  | binary op left right ihleft ihright =>
    have hleft := ihleft h.1
    have hright := ihright h.2.1
    rw [load]
    omega
  | repeated count body ih =>
    have hbody := ih h.1
    rw [load]
    exact one_le_mul_of_one_le_of_one_le h.2.1 hbody
  | sequence items ih =>
    rw [WellFormed, areItems_iff] at h
    have hlength := length_le_loadOfAll fun item hitem => ih item hitem (h.1 item hitem).1
    rw [load]
    omega

-- A sum of counts is no word as soon as one of the counts is none.
theorem fit_bind_add {a b : Int} (ha : 0 ≤ a) (hb : 0 ≤ b) :
    ((Word.fit a).bind fun x => (Word.fit b).bind fun y => Word.add x y) = Word.fit (a + b) := by
  by_cases hfits : Word.Fits (a + b)
  · have hfitsa : Word.Fits a := by
      simp only [Word.Fits, Word.least, Word.greatest] at hfits ⊢
      omega
    have hfitsb : Word.Fits b := by
      simp only [Word.Fits, Word.least, Word.greatest] at hfits ⊢
      omega
    rw [Word.fit_of_fits hfitsa, Word.fit_of_fits hfitsb]
    rfl
  · have hnone : Word.fit (a + b) = none := if_neg hfits
    rw [hnone]
    unfold Word.add Word.fit
    split <;> split <;> simp [hfits]

-- Nor does a product come back into the range.
theorem fit_bind_mul {count w : Int} (hcount : 1 ≤ count) (hw : 0 ≤ w) :
    ((Word.fit w).bind fun x => Word.mul count x) = Word.fit (count * w) := by
  have hle : w ≤ count * w := le_mul_of_one_le_left hw hcount
  by_cases hfits : Word.Fits (count * w)
  · have hfitsw : Word.Fits w := by
      simp only [Word.Fits, Word.least, Word.greatest] at hfits ⊢
      omega
    rw [Word.fit_of_fits hfitsw]
    rfl
  · have hnone : Word.fit (count * w) = none := if_neg hfits
    rw [hnone]
    unfold Word.mul Word.fit
    split <;> simp [hfits]

theorem workOfAll_eq_fit {items : List Expr} (hpos : ∀ item ∈ items, 1 ≤ item.load)
    (h : ∀ item ∈ items, item.work = Word.fit item.load) :
    workOfAll items = Word.fit (loadOfAll items) := by
  induction items with
  | nil => rfl
  | cons item items ih =>
    obtain ⟨hitem, hitems⟩ := List.forall_mem_cons.mp h
    obtain ⟨hitempos, hitemspos⟩ := List.forall_mem_cons.mp hpos
    have hrest := length_le_loadOfAll hitemspos
    rw [workOfAll, hitem, ih hitemspos hitems, fit_bind_add (by omega) (by omega), loadOfAll]

/-- The work counted in words is the load, or nothing where the load is no word. -/
theorem work_eq_fit_load {e : Expr} (h : e.WellFormed) : e.work = Word.fit e.load := by
  induction e with
  | constant => rfl
  | dice pool =>
    have hpool : pool.WellFormed := h
    exact (Word.fit_of_fits (fits_of_le_count hpool hpool.count_pos (Int.le_refl _))).symm
  | selected selector amount pool =>
    exact (Word.fit_of_fits (fits_of_le_count h.1 h.1.count_pos (Int.le_refl _))).symm
  | binary op left right ihleft ihright =>
    have hleft := load_pos h.1
    have hright := load_pos h.2.1
    rw [work, ihleft h.1, ihright h.2.1, fit_bind_add (by omega) (by omega), load]
  | repeated count body ih =>
    have hbody := load_pos h.1
    rw [work, ih h.1, fit_bind_mul h.2.1 (by omega), load]
  | sequence items ih =>
    rw [WellFormed, areItems_iff] at h
    rw [work, load]
    exact workOfAll_eq_fit (fun item hitem => load_pos (h.1 item hitem).1)
      fun item hitem => ih item hitem (h.1 item hitem).1

/-- The limit on work is a limit on the load of all repetitions. -/
theorem isTooMuchWork_eq_false_iff {count : Int} {body : Expr} (hcount : 1 ≤ count)
    (hpos : 1 ≤ body.load) (hwork : body.work = Word.fit body.load) :
    body.isTooMuchWork count = false ↔ count * body.load ≤ maxWork := by
  -- Dividing the limit instead of multiplying the load makes no difference.
  have hdivision : body.load ≤ maxWork.tdiv count ↔ count * body.load ≤ maxWork := by
    rw [Int.tdiv_eq_ediv_of_nonneg (by decide), Int.le_ediv_iff_mul_le (by omega), mul_comm]
  have hle : body.load ≤ count * body.load := le_mul_of_one_le_left (by omega) hcount
  unfold isTooMuchWork
  rw [hwork]
  by_cases hfits : Word.Fits body.load
  · rw [Word.fit_of_fits hfits]
    simp only [decide_eq_false_iff_not, not_lt]
    exact hdivision
  · have hlarge : ¬ count * body.load ≤ maxWork := by
      intro hsmall
      apply hfits
      simp only [Word.Fits, Word.least, Word.greatest, maxWork] at *
      omega
    rw [show Word.fit body.load = none from if_neg hfits]
    simp only [hlarge, Bool.true_eq_false]

theorem repeated_isTooMuchWork_iff {count : Int} {body : Expr} (h : body.WellFormed)
    (hcount : 1 ≤ count) :
    body.isTooMuchWork count = false ↔ count * body.load ≤ maxWork :=
  isTooMuchWork_eq_false_iff hcount (load_pos h) (work_eq_fit_load h)

theorem sequence_isTooMuchWork_iff {items : List Expr} (h : ∀ item ∈ items, item.WellFormed)
    (hlength : 2 ≤ items.length) :
    (Expr.sequence items).isTooMuchWork 1 = false ↔ loadOfAll items ≤ maxWork := by
  have hpos : ∀ item ∈ items, 1 ≤ item.load := fun item hitem => load_pos (h item hitem)
  have hcount := length_le_loadOfAll hpos
  have hwork := workOfAll_eq_fit hpos fun item hitem => work_eq_fit_load (h item hitem)
  have hload : 1 ≤ (Expr.sequence items).load := by
    rw [load]
    omega
  rw [isTooMuchWork_eq_false_iff (Int.le_refl 1) hload hwork, one_mul, load]

/-! ## 3. Well-formed expressions -/

theorem wellFormed_of_isBuilt {e : Expr} (h : IsBuilt e) : e.WellFormed := by
  induction h with
  | constant hfits => exact hfits
  | dice hfits hbuild =>
    obtain ⟨⟨hpos, hle⟩, hsides, rfl⟩ := dice_eq_ok_iff.mp hbuild
    exact ⟨hpos, hle, hsides, hfits, fun hkind => (nomatch hkind)⟩
  | fudgeDice hbuild =>
    obtain ⟨⟨hpos, hle⟩, rfl⟩ := fudgeDice_eq_ok_iff.mp hbuild
    exact ⟨hpos, hle, (by decide : (1 : Int) ≤ 3), (by decide : Word.Fits 3), fun _ => rfl⟩
  | selected _ hbuild ih =>
    obtain ⟨pool, rfl, hpos, hle, rfl⟩ := selected_eq_ok_iff.mp hbuild
    exact ⟨ih, hpos, hle⟩
  | binary _ _ hbuild ihleft ihright =>
    obtain ⟨hleft, hright, rfl⟩ := binary_eq_ok_iff.mp hbuild
    exact ⟨ihleft, ihright, hleft, hright⟩
  | repeated _ hbuild ih =>
    obtain ⟨⟨hpos, hle⟩, hsequence, hwork, rfl⟩ := repeated_eq_ok_iff.mp hbuild
    exact ⟨ih, hpos, hle, hsequence,
      (repeated_isTooMuchWork_iff ih hpos).mp hwork⟩
  | @sequence items e _ hbuild ih =>
    obtain ⟨hlength, hitems, hwork, rfl⟩ := sequence_eq_ok_iff.mp hbuild
    exact ⟨areItems_iff.mpr fun item hitem => ⟨ih item hitem, hitems item hitem⟩, hlength,
      (sequence_isTooMuchWork_iff ih hlength).mp hwork⟩

theorem isBuilt_dice {pool : Pool} (h : pool.WellFormed) : IsBuilt (.dice pool) := by
  obtain ⟨hpos, hle, hsides, hfits, hfudge⟩ := h
  obtain ⟨count, sides, kind⟩ := pool
  cases kind with
  | standard => exact .dice hfits (dice_eq_ok_iff.mpr ⟨⟨hpos, hle⟩, hsides, rfl⟩)
  | fudge =>
    obtain rfl : sides = 3 := hfudge rfl
    exact .fudgeDice (fudgeDice_eq_ok_iff.mpr ⟨⟨hpos, hle⟩, rfl⟩)

theorem isBuilt_of_wellFormed {e : Expr} (h : e.WellFormed) : IsBuilt e := by
  induction e with
  | constant value => exact .constant h
  | dice pool => exact isBuilt_dice h
  | selected selector amount pool =>
    obtain ⟨hpool, hpos, hle⟩ := h
    exact .selected (isBuilt_dice hpool) (selected_eq_ok_iff.mpr ⟨pool, rfl, hpos, hle, rfl⟩)
  | binary op left right ihleft ihright =>
    exact .binary (ihleft h.1) (ihright h.2.1) (binary_eq_ok_iff.mpr ⟨h.2.2.1, h.2.2.2, rfl⟩)
  | repeated count body ih =>
    obtain ⟨hbody, hpos, hle, hsequence, hload⟩ := h
    exact .repeated (ih hbody) (repeated_eq_ok_iff.mpr
      ⟨⟨hpos, hle⟩, hsequence, (repeated_isTooMuchWork_iff hbody hpos).mpr hload, rfl⟩)
  | sequence items ih =>
    obtain ⟨hitems, hlength, hload⟩ := h
    rw [areItems_iff] at hitems
    have hwork := sequence_isTooMuchWork_iff (fun item hitem => (hitems item hitem).1) hlength
    exact .sequence (fun item hitem => ih item hitem (hitems item hitem).1)
      (sequence_eq_ok_iff.mpr ⟨hlength, fun item hitem => (hitems item hitem).2, hwork.mpr hload, rfl⟩)

end DiceFormula.Expr
