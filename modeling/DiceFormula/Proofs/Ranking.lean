import DiceFormula.Proofs.Selection
import Mathlib

/-!
# The ranking of dice

A die is kept if and only if fewer dice come before it than are to be kept. The sort behind a
ranking is stable, so the order of two dice with equal faces is that in which they were thrown.
-/

namespace DiceFormula

/-! ## 1. The order of two dice -/

theorem ranksBefore_trans (high : Bool) (a b c : Int) (hab : ranksBefore high a b = true)
    (hbc : ranksBefore high b c = true) : ranksBefore high a c = true := by
  cases high <;> simp [ranksBefore] at * <;> omega

theorem ranksBefore_total (high : Bool) (a b : Int) :
    (ranksBefore high a b || ranksBefore high b a) = true := by
  cases high <;> simp [ranksBefore] <;> omega

theorem outranks_of_not_ranksBefore {high : Bool} {a b : Int} (h : ranksBefore high a b = false) :
    outranks high b a = true := by
  cases high <;> simp [ranksBefore, outranks] at * <;> omega

theorem outranks_or_eq_of_ranksBefore {high : Bool} {a b : Int} (h : ranksBefore high a b = true) :
    outranks high a b = true ∨ a = b := by
  cases high <;> simp [ranksBefore, outranks] at * <;> omega

variable {high : Bool} {a b : Roll × Nat}

theorem comesBefore_irrefl (high : Bool) (a : Roll × Nat) : comesBefore high a a = false := by
  cases high <;> simp [comesBefore, outranks]

theorem comesBefore_asymm (h : comesBefore high a b = true) : comesBefore high b a = false := by
  cases high <;> simp [comesBefore, outranks] at * <;> omega

theorem comesBefore_of_outranks (h : outranks high a.1.value b.1.value = true) :
    comesBefore high a b = true := by
  simp [comesBefore, h]

theorem comesBefore_of_place (h : ranksBefore high a.1.value b.1.value = true) (hplace : a.2 < b.2) :
    comesBefore high a b = true := by
  cases outranks_or_eq_of_ranksBefore h with
  | inl hbetter => exact comesBefore_of_outranks hbetter
  | inr heq => simp [comesBefore, heq, hplace]

/-- The dice that come before an earlier die with the same face come before the later one too. -/
theorem comesBefore_of_earlier {other : Roll × Nat} (hface : a.1.value = b.1.value)
    (hplace : a.2 < b.2) (h : comesBefore high other a = true) : comesBefore high other b = true := by
  cases high <;> simp [comesBefore, outranks, hface] at * <;> omega

/-! ## 2. The sorted dice -/

/-- The dice, with their places, in the order of the ranking. -/
def sorted (high : Bool) (dice : List (Roll × Nat)) : List (Roll × Nat) :=
  dice.mergeSort fun a b => ranksBefore high a.1.value b.1.value

-- The sort puts the first die behind better ones only, and all dice behind it were thrown later.
theorem pairwise_sorted {dice : List (Roll × Nat)} (h : dice.Pairwise fun a b => a.2 < b.2) :
    (sorted high dice).Pairwise fun a b => comesBefore high a b = true := by
  have htrans (a b c : Roll × Nat) := ranksBefore_trans high a.1.value b.1.value c.1.value
  have htotal (a b : Roll × Nat) := ranksBefore_total high a.1.value b.1.value
  induction dice with
  | nil => simp [sorted]
  | cons die dice ih =>
    obtain ⟨hfirst, hrest⟩ := List.pairwise_cons.mp h
    obtain ⟨front, back, hsort, hothers, hfront⟩ := List.mergeSort_cons htrans htotal die dice
    have hsorted := List.pairwise_mergeSort htrans htotal (die :: dice)
    have hplaces := ih hrest
    rw [sorted, hothers] at hplaces
    rw [hsort] at hsorted
    rw [sorted, hsort]
    have hbefore : ∀ other ∈ front, comesBefore high other die = true := by
      intro other hother
      exact comesBefore_of_outranks (outranks_of_not_ranksBefore (by simpa using hfront other hother))
    have hbehind : ∀ other ∈ back, comesBefore high die other = true := by
      intro other hother
      have hmem : other ∈ dice := by
        rw [← List.mem_mergeSort, hothers]
        exact List.mem_append_right front hother
      have hranks := (List.pairwise_cons.mp (List.pairwise_append.mp hsorted).2.1).1 other hother
      exact comesBefore_of_place hranks (hfirst other hmem)
    rw [List.pairwise_append] at hplaces ⊢
    obtain ⟨hplacesFront, hplacesBack, hplacesBoth⟩ := hplaces
    refine ⟨hplacesFront, List.pairwise_cons.mpr ⟨hbehind, hplacesBack⟩, fun other hother => ?_⟩
    rw [List.forall_mem_cons]
    exact ⟨hbefore other hother, hplacesBoth other hother⟩

/-- In a list that is in the order of the ranking, the dice taken off the front are those before
which fewer dice come. -/
theorem mem_take_iff_countP_lt {dice : List (Roll × Nat)}
    (h : dice.Pairwise fun a b => comesBefore high a b = true) {die : Roll × Nat} (hdie : die ∈ dice)
    (limit : Nat) :
    die ∈ dice.take limit ↔ (dice.countP fun other => comesBefore high other die) < limit := by
  induction dice generalizing limit with
  | nil => simp at hdie
  | cons first dice ih =>
    obtain ⟨hfirst, hrest⟩ := List.pairwise_cons.mp h
    cases limit with
    | zero => simp
    | succ limit =>
      rw [List.take_succ_cons, List.mem_cons, List.countP_cons]
      cases List.mem_cons.mp hdie with
      | inl heq =>
        subst heq
        have hnone : (dice.countP fun other => comesBefore high other die) = 0 := by
          rw [List.countP_eq_zero]
          intro other hother
          simp [comesBefore_asymm (hfirst other hother)]
        simp [hnone, comesBefore_irrefl]
      | inr hmem =>
        have hbefore := hfirst die hmem
        have hne : die ≠ first := by
          rintro rfl
          simp [comesBefore_irrefl] at hbefore
        rw [ih hrest hmem, if_pos hbefore, or_iff_right hne]
        omega

/-! ## 3. The flags -/

variable {rolls : List Roll}

theorem pairwise_zipIdx_place (rolls : List Roll) (start : Nat) :
    (rolls.zipIdx start).Pairwise fun a b => a.2 < b.2 := by
  induction rolls generalizing start with
  | nil => simp
  | cons roll rolls ih =>
    rw [List.zipIdx_cons, List.pairwise_cons]
    refine ⟨fun other hother => ?_, ih (start + 1)⟩
    have := List.le_snd_of_mem_zipIdx hother
    omega

/-- A place determines its die. -/
theorem mem_take_ranking_iff {i : Nat} {roll : Roll} (h : rolls[i]? = some roll) (limit : Nat) :
    i ∈ (ranking rolls high).take limit ↔ (roll, i) ∈ (sorted high rolls.zipIdx).take limit := by
  rw [ranking, ← List.map_take, List.mem_map]
  constructor
  · rintro ⟨⟨other, place⟩, hother, rfl⟩
    have hplace := List.mem_of_mem_take hother
    rw [List.mem_mergeSort, List.mem_zipIdx_iff_getElem?, h] at hplace
    obtain rfl := Option.some.inj hplace
    exact hother
  · intro hmem
    exact ⟨(roll, i), hmem, rfl⟩

/-- A flag is set if and only if fewer dice come before its die than are to be kept. -/
theorem getElem?_keepByRank {i : Nat} {roll : Roll} (h : rolls[i]? = some roll) (keep : Int)
    (high : Bool) :
    (keepByRank rolls keep high)[i]? = some (decide (rank rolls high (roll, i) < keep.toNat)) := by
  have hi : i < rolls.length := by
    rw [List.getElem?_eq_some_iff] at h
    exact h.1
  have hmem : (roll, i) ∈ sorted high rolls.zipIdx := by
    rw [sorted, List.mem_mergeSort, List.mem_zipIdx_iff_getElem?]
    exact h
  have hcount : ((sorted high rolls.zipIdx).countP fun other => comesBefore high other (roll, i)) =
      rank rolls high (roll, i) := (List.mergeSort_perm _ _).countP_eq _
  have htake := mem_take_iff_countP_lt (pairwise_sorted (pairwise_zipIdx_place rolls 0)) hmem
    keep.toNat
  rw [keepByRank, flagsAt_eq_map, List.getElem?_map, List.getElem?_range hi, Option.map_some]
  congr 1
  rw [decide_eq_decide, mem_take_ranking_iff h, htake, hcount]

/-- One flag is given for every die. It is set exactly if fewer dice come before the die than are to
be kept, where a better face comes first and, of two equal faces, the one thrown earlier. So as many
flags are set as are asked for, or all, and no die is kept while an earlier one with the same face
is not. -/
theorem keepByRank_eq_rank (rolls : List Roll) (keep : Int) (high : Bool) :
    (keepByRank rolls keep high).length = rolls.length ∧
      (∀ (i : Nat) (roll : Roll), rolls[i]? = some roll →
        ((keepByRank rolls keep high)[i]? = some true ↔
          (rank rolls high (roll, i) : Int) < max keep 0)) ∧
      ((keepByRank rolls keep high).count true : Int) = min (rolls.length : Int) (max keep 0) ∧
      ∀ (i j : Nat) (roll other : Roll), rolls[i]? = some roll → rolls[j]? = some other →
        roll.value = other.value → i < j → (keepByRank rolls keep high)[j]? = some true →
          (keepByRank rolls keep high)[i]? = some true := by
  have hflag (i : Nat) (roll : Roll) (h : rolls[i]? = some roll) :
      (keepByRank rolls keep high)[i]? = some true ↔ rank rolls high (roll, i) < keep.toNat := by
    rw [getElem?_keepByRank h, Option.some_inj, decide_eq_true_iff]
  refine ⟨length_keepByRank rolls keep high, fun i roll h => ?_, ?_, ?_⟩
  · rw [hflag i roll h]
    omega
  · rw [count_keepByRank]
    omega
  · intro i j roll other hroll hother hface hplace hkept
    rw [hflag j other hother] at hkept
    rw [hflag i roll hroll]
    have hrank : rank rolls high (roll, i) ≤ rank rolls high (other, j) :=
      List.countP_mono_left fun die _ => comesBefore_of_earlier hface hplace
    omega

/-- Three fives and a three: the two lowest are the three and the first of the fives, and the last
of the fives is the one that is not among the three lowest. -/
theorem keepByRank_eq_rank_ties :
    let rolls : List Roll := [⟨5, 6⟩, ⟨3, 6⟩, ⟨5, 6⟩, ⟨5, 6⟩]
    rolls[0]? = some ⟨5, 6⟩ ∧ rolls[2]? = some ⟨5, 6⟩ ∧
      (rank rolls false (⟨5, 6⟩, 0) : Int) < max 2 0 ∧
      ¬ (rank rolls false (⟨5, 6⟩, 2) : Int) < max 2 0 ∧
      (keepByRank rolls 3 false)[2]? = some true ∧ (keepByRank rolls 3 false)[0]? = some true := by
  intro rolls
  have hfirst : rolls[0]? = some ⟨5, 6⟩ := rfl
  have hsecond : rolls[2]? = some ⟨5, 6⟩ := rfl
  have hkept : keepByRank rolls 2 false = [true, true, false, false] := by cbv
  have hmore : (keepByRank rolls 3 false)[2]? = some true := by cbv
  obtain ⟨-, hflag, -, -⟩ := keepByRank_eq_rank rolls 2 false
  obtain ⟨-, -, -, hties⟩ := keepByRank_eq_rank rolls 3 false
  refine ⟨hfirst, hsecond, ?_, ?_, hmore, hties 0 2 _ _ hfirst hsecond rfl (by decide) hmore⟩
  · rw [← hflag 0 ⟨5, 6⟩ hfirst, hkept]
    rfl
  · rw [← hflag 2 ⟨5, 6⟩ hsecond, hkept]
    decide

end DiceFormula
