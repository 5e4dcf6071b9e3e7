import DiceFormula.Expr.WellFormed
import DiceFormula.Outcome.Follows
import DiceFormula.Proofs.Arithmetic
import DiceFormula.Proofs.Rolling

/-!
# Sums of dice

Dice are added up one after another, with a test at every step. The faces of a pool are such that a
sum that leaves the range on the way never comes back: either no face is negative, or the steps are
too short to leave the range at all.
-/

namespace DiceFormula

/-! ## 1. Sums -/

theorem checkedSum_eq_ok_iff {left right result : Int} (hl : Word.Fits left) (hr : Word.Fits right) :
    checkedSum left right = .ok result ↔ left + right = result ∧ Word.Fits result := by
  rw [checkedSum, mapError_eq_ok_iff, Operator.apply_eq_ok_iff hl hr, Operator.exactResult?,
    Option.some.injEq]

theorem evaluationFault_of_checkedSum {left right : Int} {fault : OwnFault}
    (h : checkedSum left right = .error fault) : ∃ cause, fault = .evaluation cause := by
  unfold checkedSum at h
  cases hsum : Operator.add.apply left right with
  | ok sum =>
    rw [hsum] at h
    exact nomatch h
  | error cause =>
    rw [hsum] at h
    exact ⟨cause, (Except.error.inj h).symm⟩

theorem evaluationFault_of_sumFrom {values : List Int} {total : Int} {fault : OwnFault}
    (h : sumFrom total values = .error fault) : ∃ cause, fault = .evaluation cause := by
  induction values generalizing total with
  | nil => exact nomatch h
  | cons value rest ih =>
    rw [sumFrom] at h
    cases hsum : checkedSum total value with
    | error cause =>
      rw [hsum] at h
      obtain rfl := Except.error.inj h
      exact evaluationFault_of_checkedSum hsum
    | ok sum =>
      rw [hsum] at h
      exact ih h

-- Faces of any size: a sum that succeeds is the exact one.
theorem eq_of_sumFrom {values : List Int} {total result : Int}
    (h : sumFrom total values = .ok result) : result = total + values.sum := by
  induction values generalizing total with
  | nil =>
    rw [List.sum_nil, Int.add_zero]
    exact (Except.ok.inj h).symm
  | cons value rest ih =>
    obtain ⟨sum, hsum, hrest⟩ := bind_eq_ok_iff.mp h
    rw [checkedSum, mapError_eq_ok_iff] at hsum
    have hexact : total + value = sum := Option.some.inj (Operator.exactResult?_of_apply hsum).1
    rw [List.sum_cons, ih hrest]
    omega

theorem fits_of_sumFrom {values : List Int} {total result : Int} (htotal : Word.Fits total)
    (h : sumFrom total values = .ok result) : Word.Fits result := by
  induction values generalizing total with
  | nil =>
    obtain rfl := Except.ok.inj h
    exact htotal
  | cons value rest ih =>
    obtain ⟨sum, hsum, hrest⟩ := bind_eq_ok_iff.mp h
    rw [checkedSum, mapError_eq_ok_iff] at hsum
    exact ih (Operator.exactResult?_of_apply hsum).2 hrest

/-- Numbers whose sum stays in the range once it is there, or else leaves it for good. -/
def Steady (total : Int) (values : List Int) : Prop :=
  (∀ value ∈ values, 0 ≤ value) ∨
    (∀ value ∈ values, -1 ≤ value ∧ value ≤ 1) ∧
      Word.least ≤ total - values.length ∧ total + values.length ≤ Word.greatest

theorem Steady.tail {total value : Int} {rest : List Int} (h : Steady total (value :: rest)) :
    Steady (total + value) rest := by
  rcases h with hnonneg | ⟨hsmall, hlow, hhigh⟩
  · exact .inl (List.forall_mem_cons.mp hnonneg).2
  · obtain ⟨hvalue, hrest⟩ := List.forall_mem_cons.mp hsmall
    rw [List.length_cons] at hlow hhigh
    exact .inr ⟨hrest, by omega, by omega⟩

/-- A sum outside the range is not brought back by what follows. -/
theorem Steady.not_fits {total value : Int} {rest : List Int} (h : Steady total (value :: rest))
    (htotal : Word.Fits total) (hsum : ¬ Word.Fits (total + value)) :
    ¬ Word.Fits (total + (value :: rest).sum) := by
  rcases h with hnonneg | ⟨hsmall, hlow, hhigh⟩
  · obtain ⟨hvalue, hrest⟩ := List.forall_mem_cons.mp hnonneg
    have hrestSum : 0 ≤ rest.sum := List.sum_nonneg hrest
    rw [List.sum_cons]
    simp only [Word.Fits, Word.least, Word.greatest] at htotal hsum ⊢
    omega
  · have hvalue := hsmall value List.mem_cons_self
    rw [List.length_cons] at hlow hhigh
    refine absurd ?_ hsum
    simp only [Word.Fits]
    omega

/-- The steps of a steady sum succeed if and only if the whole sum is a word. -/
theorem sumFrom_eq_ok_iff {values : List Int} {total result : Int} (hsteady : Steady total values)
    (htotal : Word.Fits total) (hvalues : ∀ value ∈ values, Word.Fits value) :
    sumFrom total values = .ok result ↔ total + values.sum = result ∧ Word.Fits result := by
  induction values generalizing total with
  | nil =>
    rw [sumFrom, Except.ok.injEq, List.sum_nil, Int.add_zero]
    refine ⟨fun h => ⟨h, h ▸ htotal⟩, fun h => h.1⟩
  | cons value rest ih =>
    obtain ⟨hvalue, hrest⟩ := List.forall_mem_cons.mp hvalues
    rw [sumFrom]
    by_cases hsum : Word.Fits (total + value)
    · -- The step succeeds, and what is left is as steady as before.
      have hstep : checkedSum total value = .ok (total + value) :=
        (checkedSum_eq_ok_iff htotal hvalue).mpr ⟨rfl, hsum⟩
      rw [hstep, List.sum_cons, ← Int.add_assoc]
      exact ih hsteady.tail hsum hrest
    · -- The step fails, and the whole sum is no word either.
      have hlost := hsteady.not_fits htotal hsum
      constructor
      · intro h
        obtain ⟨sum, hstep, -⟩ := bind_eq_ok_iff.mp h
        obtain ⟨rfl, hfits⟩ := (checkedSum_eq_ok_iff htotal hvalue).mp hstep
        exact absurd hfits hsum
      · rintro ⟨rfl, hfits⟩
        exact absurd hfits hlost

/-! ## 2. Selections -/

theorem keptRolls_sublist (rolls : List Roll) (kept : List Bool) :
    (keptRolls rolls kept).Sublist rolls := by
  induction rolls generalizing kept with
  | nil => exact List.Sublist.refl []
  | cons roll rolls ih =>
    cases kept with
    | nil => exact List.nil_sublist _
    | cons flag kept =>
      have hrest := ih kept
      unfold keptRolls at hrest ⊢
      rw [List.zip_cons_cons, List.filter_cons]
      cases flag with
      | true => exact hrest.cons_cons roll
      | false => exact hrest.cons roll

/-- There is a kept die for every set flag. -/
theorem length_keptRolls {rolls : List Roll} {kept : List Bool} (h : kept.length = rolls.length) :
    (keptRolls rolls kept).length = kept.count true := by
  induction rolls generalizing kept with
  | nil =>
    rw [List.length_eq_zero_iff.mp h]
    rfl
  | cons roll rolls ih =>
    cases kept with
    | nil => exact nomatch h
    | cons flag kept =>
      have hrest := ih (Nat.succ.inj h)
      unfold keptRolls at hrest ⊢
      rw [List.zip_cons_cons, List.filter_cons]
      cases flag with
      | true => simpa using hrest
      | false => simpa using hrest

theorem map_value_rollsOf (pool : Pool) (faces : List Int) :
    (pool.rollsOf faces).map (·.value) = faces := by
  rw [Pool.rollsOf, List.map_map]
  exact List.map_id faces

theorem keptFaces_sublist (selector : Selector) (amount : Int) (pool : Pool) (faces : List Int) :
    (selector.keptFaces amount pool faces).Sublist faces := by
  have hsub := (keptRolls_sublist (pool.rollsOf faces)
    (keepByRank (pool.rollsOf faces) (selector.leaves amount pool) selector.prefersHigh)).map
      (·.value)
  rwa [map_value_rollsOf] at hsub

namespace Outcome

theorem faces_dice (pool : Pool) (value : Value) (faces : List Int) :
    (node (.dice pool) value (pool.rollsOf faces) [] []).faces = faces :=
  map_value_rollsOf pool faces

theorem faces_selected (selector : Selector) (amount : Int) (pool : Pool) (value sum : Value)
    (faces : List Int) (kept : List Bool) :
    (node (.selected selector amount pool) value (pool.rollsOf faces) kept
      [node (.dice pool) sum (pool.rollsOf faces) [] []]).faces = faces :=
  (List.append_nil _).trans (faces_dice pool sum faces)

theorem faces_binary (op : Operator) (left right : Expr) (value : Value) (a b : Outcome) :
    (node (.binary op left right) value [] [] [a, b]).faces = a.faces ++ b.faces :=
  congrArg (a.faces ++ ·) (List.append_nil _)

end Outcome

/-! ## 3. Pools -/

variable {σ ε : Type} {source : Source σ ε} {pool : Pool} {state later : σ}

/-- The faces that a pool can show. -/
def Pool.Shows (pool : Pool) (faces : List Int) : Prop :=
  faces.length = pool.count.toNat ∧
    ∀ face ∈ faces, pool.leastFace ≤ face ∧ face ≤ pool.greatestFace

/-- Sums of a pool are steady, whichever dice are kept. -/
theorem Pool.Shows.steady (hpool : pool.WellFormed) {faces values : List Int}
    (h : pool.Shows faces) (hsub : values.Sublist faces) :
    Steady 0 values ∧ ∀ value ∈ values, Word.Fits value := by
  obtain ⟨hlength, hrange⟩ := h
  have hshown : ∀ value ∈ values, pool.leastFace ≤ value ∧ value ≤ pool.greatestFace :=
    fun value hvalue => hrange value (hsub.subset hvalue)
  have hcount := hpool.count_le
  have hfew : values.length ≤ pool.count.toNat := hlength ▸ hsub.length_le
  have hsides := hpool.sides_fits
  unfold Pool.leastFace Pool.greatestFace at hshown
  cases hkind : pool.kind with
  | standard =>
    -- Faces from one on: no sum of them goes down.
    rw [hkind] at hshown
    dsimp only at hshown
    refine ⟨.inl fun value hvalue => ?_, fun value hvalue => ?_⟩
    · have hvalue := hshown value hvalue
      omega
    · have hvalue := hshown value hvalue
      simp only [Word.Fits, Word.least, Word.greatest] at hsides ⊢
      omega
  | fudge =>
    -- Faces of at most one either way, and too few of them to leave the range.
    rw [hkind] at hshown
    refine ⟨.inr ⟨hshown, ?_⟩, fun value hvalue => ?_⟩
    · simp only [maxDice, Word.least, Word.greatest] at hcount ⊢
      omega
    · have hvalue := hshown value hvalue
      simp only [Word.Fits, Word.least, Word.greatest] at hvalue ⊢
      omega

/-- Adding up dice of a pool gives the exact sum, or fails because that is no word. -/
theorem Pool.Shows.sumFrom_eq (hpool : pool.WellFormed) {faces values : List Int}
    (h : pool.Shows faces) (hsub : values.Sublist faces) :
    (sumFrom 0 values = .ok values.sum ∧ Word.Fits values.sum) ∨
      ((∃ cause, sumFrom 0 values = .error (.evaluation cause)) ∧ ¬ Word.Fits values.sum) := by
  obtain ⟨hsteady, hwords⟩ := h.steady hpool hsub
  have hiff : ∀ {sum}, sumFrom 0 values = .ok sum ↔ 0 + values.sum = sum ∧ Word.Fits sum :=
    sumFrom_eq_ok_iff hsteady (by decide) hwords
  by_cases hfits : Word.Fits values.sum
  · exact .inl ⟨hiff.mpr ⟨Int.zero_add _, hfits⟩, hfits⟩
  · refine .inr ⟨?_, hfits⟩
    cases hsum : sumFrom 0 values with
    | error fault =>
      obtain ⟨cause, rfl⟩ := evaluationFault_of_sumFrom hsum
      exact ⟨cause, rfl⟩
    | ok sum =>
      obtain ⟨heq, hword⟩ := hiff.mp hsum
      rw [Int.zero_add] at heq
      exact absurd (heq ▸ hword) hfits

-- Throwing dice one by one is drawing all of them and adding them up, up to the first sum that fails.
theorem throwDice_of_sumFrom {count : Nat} {total sum : Int} {faces : List Int}
    (h : source.answers (List.replicate count (pool.leastFace, pool.greatestFace)) state =
      (.ok faces, later))
    (hsum : sumFrom total faces = .ok sum) :
    (throwDice source pool count total).runFrom state = (.ok (pool.rollsOf faces, sum), later) := by
  induction count generalizing total faces state with
  | zero =>
    cases h
    cases hsum
    rfl
  | succ count ih =>
    obtain ⟨face, others, middle, rfl, hdraw, hothers⟩ := Source.answers_cons_eq_ok_iff.mp h
    obtain ⟨next, hstep, hrest⟩ := bind_eq_ok_iff.mp hsum
    rw [throwDice, Rolling.runFrom_bind_of_ok (Rolling.runFrom_draw_eq_ok_iff.mpr hdraw),
      Rolling.runFrom_bind_of_ok (Rolling.runFrom_ofExcept_eq_ok_iff.mpr ⟨hstep, rfl⟩),
      Rolling.runFrom_bind_of_ok (ih hothers hrest)]
    rfl

theorem throwDice_of_sumFrom_error {count : Nat} {total : Int} {faces : List Int} {fault : OwnFault}
    (h : source.answers (List.replicate count (pool.leastFace, pool.greatestFace)) state =
      (.ok faces, later))
    (hsum : sumFrom total faces = .error fault) :
    ∃ middle, (throwDice source pool count total).runFrom state = (.error fault, middle) := by
  induction count generalizing total faces state with
  | zero =>
    cases h
    exact nomatch hsum
  | succ count ih =>
    obtain ⟨face, others, middle, rfl, hdraw, hothers⟩ := Source.answers_cons_eq_ok_iff.mp h
    rw [throwDice, Rolling.runFrom_bind_of_ok (Rolling.runFrom_draw_eq_ok_iff.mpr hdraw)]
    rw [sumFrom] at hsum
    cases hstep : checkedSum total face with
    | error cause =>
      rw [hstep] at hsum
      obtain rfl := Except.error.inj hsum
      exact ⟨middle, Rolling.runFrom_bind_of_error (Rolling.runFrom_ofExcept _ _)⟩
    | ok next =>
      rw [hstep] at hsum
      obtain ⟨last, hrest⟩ := ih hothers hsum
      rw [Rolling.runFrom_bind_of_ok (Rolling.runFrom_ofExcept _ _)]
      exact ⟨last, Rolling.runFrom_bind_of_error hrest⟩

/-- Dice that were thrown show the answers of the source, and their sum has been tested. -/
theorem answers_of_throwDice {count : Nat} {total sum : Int} {rolls : List Roll}
    (h : (throwDice source pool count total).runFrom state = (.ok (rolls, sum), later)) :
    ∃ faces, source.answers (List.replicate count (pool.leastFace, pool.greatestFace)) state =
        (.ok faces, later) ∧
      rolls = pool.rollsOf faces ∧ sumFrom total faces = .ok sum := by
  induction count generalizing total rolls state with
  | zero =>
    obtain ⟨hpair, rfl⟩ := Rolling.runFrom_pure_eq_ok_iff.mp h
    obtain ⟨rfl, rfl⟩ := Prod.mk.inj hpair
    exact ⟨[], rfl, rfl, rfl⟩
  | succ count ih =>
    rw [throwDice] at h
    obtain ⟨face, middle, hdraw, h⟩ := Rolling.runFrom_bind_eq_ok_iff.mp h
    obtain ⟨next, _, hadd, h⟩ := Rolling.runFrom_bind_eq_ok_iff.mp h
    obtain ⟨hstep, rfl⟩ := Rolling.runFrom_ofExcept_eq_ok_iff.mp hadd
    obtain ⟨⟨others, _⟩, last, hrest, h⟩ := Rolling.runFrom_bind_eq_ok_iff.mp h
    obtain ⟨hpair, rfl⟩ := Rolling.runFrom_pure_eq_ok_iff.mp h
    obtain ⟨rfl, rfl⟩ := Prod.mk.inj hpair
    obtain ⟨faces, hfaces, rfl, hsum⟩ := ih hrest
    refine ⟨face :: faces, ?_, rfl, bind_eq_ok_iff.mpr ⟨next, hstep, hsum⟩⟩
    exact Source.answers_cons_eq_ok_iff.mpr
      ⟨face, faces, middle, rfl, Rolling.runFrom_draw_eq_ok_iff.mp hdraw, hfaces⟩

end DiceFormula
