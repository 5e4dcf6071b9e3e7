import DiceFormula.Outcome.Selection

/-!
# Flags of a selection

The places of a ranking are those of the dice in some order, so that a flag is set for as many dice
as are taken off the front of the ranking.
-/

namespace DiceFormula

/-! ## 1. Flags -/

-- Setting a flag once more changes nothing, so the order of the places does not matter.
theorem getElem?_foldl_set (places : List Nat) (flags : Array Bool) (i : Nat) :
    (places.foldl (fun flags place => flags.setIfInBounds place true) flags)[i]? =
      flags[i]?.map fun flag => flag || decide (i ∈ places) := by
  induction places generalizing flags with
  | nil =>
    have hnone : decide (i ∈ ([] : List Nat)) = false := decide_eq_false List.not_mem_nil
    simp only [List.foldl_nil, hnone, Bool.or_false, Option.map_id']
  | cons place places ih =>
    rw [List.foldl_cons, ih, Array.getElem?_setIfInBounds]
    by_cases hplace : place = i
    · subst hplace
      by_cases hsize : place < flags.size
      · simp [hsize]
      · simp [hsize]
    · have hmem : i ∈ place :: places ↔ i ∈ places := by
        rw [List.mem_cons]
        exact or_iff_right fun h => hplace h.symm
      rw [if_neg hplace]
      simp only [hmem]

/-- A flag is set if and only if its place is among the given ones. -/
theorem flagsAt_eq_map (places : List Nat) (size : Nat) :
    flagsAt places size = (List.range size).map fun i => decide (i ∈ places) := by
  apply List.ext_getElem?
  intro i
  rw [flagsAt, Array.getElem?_toList, getElem?_foldl_set, Array.getElem?_replicate,
    List.getElem?_map]
  by_cases hi : i < size
  · rw [if_pos hi, List.getElem?_range hi]
    rfl
  · rw [if_neg hi, List.getElem?_eq_none (by rw [List.length_range]; omega)]
    rfl

theorem count_flagsAt {places : List Nat} {size : Nat} (hnodup : places.Nodup)
    (hsize : ∀ place ∈ places, place < size) :
    (flagsAt places size).count true = places.length := by
  -- The places in ascending order are the same places.
  have hperm : ((List.range size).filter fun i => decide (i ∈ places)).Perm places := by
    rw [List.perm_ext_iff_of_nodup (List.nodup_range.filter _) hnodup]
    intro i
    rw [List.mem_filter, List.mem_range, decide_eq_true_iff]
    exact ⟨fun h => h.2, fun h => ⟨hsize i h, h⟩⟩
  rw [flagsAt_eq_map, List.count_eq_countP, List.countP_map, List.countP_eq_length_filter,
    ← hperm.length_eq]
  congr 2
  funext i
  exact beq_true _

/-! ## 2. Rankings -/

theorem ranking_perm (rolls : List Roll) (high : Bool) :
    (ranking rolls high).Perm (List.range rolls.length) := by
  have hsort := (List.mergeSort_perm rolls.zipIdx fun a b =>
    ranksBefore high a.1.value b.1.value).map Prod.snd
  rwa [List.zipIdx_map_snd, ← List.range_eq_range'] at hsort

theorem length_keepByRank (rolls : List Roll) (keep : Int) (high : Bool) :
    (keepByRank rolls keep high).length = rolls.length := by
  rw [keepByRank, flagsAt_eq_map, List.length_map, List.length_range]

/-- As many dice are kept as are asked for, or all of them. -/
theorem count_keepByRank (rolls : List Roll) (keep : Int) (high : Bool) :
    (keepByRank rolls keep high).count true = min keep.toNat rolls.length := by
  have hperm := ranking_perm rolls high
  have hnodup : (ranking rolls high).Nodup := hperm.nodup_iff.mpr List.nodup_range
  have hlength : (ranking rolls high).length = rolls.length := by
    rw [hperm.length_eq, List.length_range]
  have hfront : ∀ place ∈ (ranking rolls high).take keep.toNat, place < rolls.length :=
    fun place hplace => List.mem_range.mp (hperm.mem_iff.mp (List.mem_of_mem_take hplace))
  rw [keepByRank, count_flagsAt (hnodup.sublist (List.take_sublist _ _)) hfront, List.length_take,
    hlength]

end DiceFormula
