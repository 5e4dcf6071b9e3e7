import DiceFormula.Outcome.SelectionLaws
import DiceFormula.Proofs.Exactness
import DiceFormula.Proofs.Ranking

/-!
# The laws of the selectors

The dice that a selector leaves show the first ones of the faces in the order of the ranking. Their
sum is the best one of all choices of as many dice, and a best sum depends on nothing but the faces,
and grows with each of them.
-/

namespace DiceFormula

/-! ## 1. Faces in the order of the ranking -/

def rankedFaces (high : Bool) (faces : List Int) : List Int :=
  faces.mergeSort (ranksBefore high)

variable {high : Bool} {faces others chosen : List Int}

theorem pairwise_rankedFaces (high : Bool) (faces : List Int) :
    (rankedFaces high faces).Pairwise fun a b => ranksBefore high a b = true :=
  List.pairwise_mergeSort (ranksBefore_trans high) (ranksBefore_total high) faces

theorem rankedFaces_perm (high : Bool) (faces : List Int) : (rankedFaces high faces).Perm faces :=
  List.mergeSort_perm faces _

theorem ranksBefore_true_iff {a b : Int} : ranksBefore true a b = true ↔ b ≤ a :=
  decide_eq_true_iff

theorem ranksBefore_false_iff {a b : Int} : ranksBefore false a b = true ↔ a ≤ b :=
  decide_eq_true_iff

theorem ranksBefore_antisymm {a b : Int} (hab : ranksBefore high a b = true)
    (hba : ranksBefore high b a = true) : a = b := by
  cases high <;> simp [ranksBefore] at hab hba <;> omega

/-- There is only one order of the ranking, since faces of one rank are equal. -/
theorem eq_rankedFaces (hperm : others.Perm faces)
    (h : others.Pairwise fun a b => ranksBefore high a b = true) :
    others = rankedFaces high faces := by
  have hall := hperm.trans (rankedFaces_perm high faces).symm
  exact List.Perm.eq_of_pairwise (fun _ _ _ _ => ranksBefore_antisymm) h
    (pairwise_rankedFaces high faces) hall

theorem rankedFaces_of_perm (h : others.Perm faces) : rankedFaces high others = rankedFaces high faces :=
  eq_rankedFaces ((rankedFaces_perm high others).trans h) (pairwise_rankedFaces high others)

theorem reverse_rankedFaces (faces : List Int) :
    (rankedFaces true faces).reverse = rankedFaces false faces := by
  have hperm := (List.reverse_perm _).trans (rankedFaces_perm true faces)
  refine eq_rankedFaces hperm ?_
  rw [List.pairwise_reverse]
  exact (pairwise_rankedFaces true faces).imp fun h =>
    ranksBefore_false_iff.mpr (ranksBefore_true_iff.mp h)

/-! ## 2. The best sums -/

/-- The sum of so many of the first faces. -/
def bestSum (high : Bool) (count : Nat) (faces : List Int) : Int :=
  ((rankedFaces high faces).take count).sum

theorem bestSum_of_perm (h : others.Perm faces) (high : Bool) (count : Nat) :
    bestSum high count others = bestSum high count faces := by
  rw [bestSum, rankedFaces_of_perm h, bestSum]

/-- The highest dice and the lowest ones, as many as are left, make up the whole throw. -/
theorem bestSum_add_bestSum (faces : List Int) {count : Nat} (h : count ≤ faces.length) :
    bestSum true count faces + bestSum false (faces.length - count) faces = faces.sum := by
  have hlength := (rankedFaces_perm true faces).length_eq
  have hlowest : (rankedFaces false faces).take (faces.length - count) =
      ((rankedFaces true faces).drop count).reverse := by
    rw [← reverse_rankedFaces, List.take_reverse, hlength]
    congr 2
    omega
  rw [bestSum, bestSum, hlowest, List.sum_reverse, ← List.sum_append, List.take_append_drop]
  exact (rankedFaces_perm true faces).sum_eq

theorem ranksBefore_add {a b c d : Int} (hab : ranksBefore high a b = true)
    (hcd : ranksBefore high c d = true) : ranksBefore high (a + c) (b + d) = true := by
  cases high <;> simp [ranksBefore] at * <;> omega

-- The first face of the ranking is exchanged for the first one of the choice, which ranks behind it.
theorem ranksBefore_sum_take {ranked : List Int}
    (h : ranked.Pairwise fun a b => ranksBefore high a b = true) (hchosen : chosen.Sublist ranked) :
    ranksBefore high (ranked.take chosen.length).sum chosen.sum = true := by
  have hrefl : ∀ sum, ranksBefore high sum sum = true := by cases high <;> simp [ranksBefore]
  induction ranked generalizing chosen with
  | nil =>
    obtain rfl := List.sublist_nil.mp hchosen
    exact hrefl _
  | cons first ranked ih =>
    obtain ⟨hfirst, hranked⟩ := List.pairwise_cons.mp h
    cases chosen with
    | nil => exact hrefl _
    | cons face chosen =>
      rw [List.length_cons, List.take_succ_cons, List.sum_cons, List.sum_cons]
      rcases List.cons_sublist_cons'.mp hchosen with hbehind | ⟨rfl, hrest⟩
      · have hface := hfirst face (hbehind.subset List.mem_cons_self)
        exact ranksBefore_add hface (ih hranked ((List.sublist_cons_self face chosen).trans hbehind))
      · exact ranksBefore_add (hrefl _) (ih hranked hrest)

/-- No choice of as many dice has a better sum. -/
theorem ranksBefore_bestSum (high : Bool) (h : chosen.Sublist faces) :
    ranksBefore high (bestSum high chosen.length faces) chosen.sum = true := by
  -- The same faces can be chosen in the order of the ranking.
  obtain ⟨ranked, hperm, hsub⟩ := h.subperm.trans (rankedFaces_perm high faces).symm.subperm
  rw [← hperm.length_eq, ← hperm.sum_eq]
  exact ranksBefore_sum_take (pairwise_rankedFaces high faces) hsub

theorem exists_choice (high : Bool) {count : Nat} (h : count ≤ faces.length) :
    ∃ chosen : List Int,
      chosen.Sublist faces ∧ chosen.length = count ∧ chosen.sum = bestSum high count faces := by
  have hfront := (List.take_sublist count (rankedFaces high faces)).subperm
  obtain ⟨chosen, hperm, hsub⟩ := hfront.trans (rankedFaces_perm high faces).subperm
  refine ⟨chosen, hsub, ?_, hperm.sum_eq⟩
  rw [hperm.length_eq, List.length_take, (rankedFaces_perm high faces).length_eq]
  omega

-- The same dice are chosen again.
theorem exists_choice_of_forall₂ {related : Int → Int → Prop}
    (h : List.Forall₂ related faces others) (hchosen : chosen.Sublist faces) :
    ∃ again : List Int, again.Sublist others ∧ List.Forall₂ related chosen again := by
  induction hchosen generalizing others with
  | slnil => exact ⟨[], List.nil_sublist others, .nil⟩
  | cons _ _ ih =>
    cases h with
    | cons _ hrest =>
      obtain ⟨again, hsub, hagain⟩ := ih hrest
      exact ⟨again, hsub.cons _, hagain⟩
  | cons_cons _ _ ih =>
    cases h with
    | cons hface hrest =>
      obtain ⟨again, hsub, hagain⟩ := ih hrest
      exact ⟨_ :: again, hsub.cons_cons _, .cons hface hagain⟩

/-- Where no face is less, no best sum is less. -/
theorem bestSum_le_bestSum (h : List.Forall₂ (· ≤ ·) faces others) (high : Bool) {count : Nat}
    (hcount : count ≤ faces.length) : bestSum high count faces ≤ bestSum high count others := by
  cases high with
  | true =>
    -- The highest dice of the first throw come to no less in the second one.
    obtain ⟨chosen, hsub, hlength, hsum⟩ := exists_choice true hcount
    obtain ⟨again, hagain, hle⟩ := exists_choice_of_forall₂ h hsub
    have hbest := ranksBefore_true_iff.mp (ranksBefore_bestSum true hagain)
    rw [← hle.length_eq, hlength] at hbest
    have hmore := hle.sum_le_sum
    omega
  | false =>
    -- The lowest dice of the second throw come to no more in the first one.
    obtain ⟨chosen, hsub, hlength, hsum⟩ := exists_choice false (h.length_eq ▸ hcount)
    obtain ⟨again, hagain, hle⟩ := exists_choice_of_forall₂ h.flip hsub
    have hbest := ranksBefore_false_iff.mp (ranksBefore_bestSum false hagain)
    rw [← hle.length_eq, hlength] at hbest
    have hless := hle.flip.sum_le_sum
    omega

theorem forall₂_set {place : Nat} {face raised : Int} (h : faces[place]? = some face)
    (hle : face ≤ raised) : List.Forall₂ (· ≤ ·) faces (faces.set place raised) := by
  induction faces generalizing place with
  | nil => exact .nil
  | cons first faces ih =>
    cases place with
    | zero =>
      obtain rfl := Option.some.inj h
      exact .cons hle (List.forall₂_refl faces)
    | succ place => exact .cons (Int.le_refl first) (ih h)

/-! ## 3. Kept dice -/

-- A die is told by its place, so that flags at the places of dice are flags of these dice.
theorem keptRolls_flagsAt (rolls : List Roll) (places : List Nat) :
    keptRolls rolls (flagsAt places rolls.length) =
      (rolls.zipIdx.filter fun die => decide (die.2 ∈ places)).map (·.1) := by
  rw [flagsAt_eq_map, keptRolls, List.zip_map_right, List.range_eq_range',
    ← List.zipIdx_eq_zip_range', List.filter_map, List.map_map]
  rfl

theorem nodup_zipIdx (rolls : List Roll) : rolls.zipIdx.Nodup :=
  (pairwise_zipIdx_place rolls 0).imp fun h heq => absurd (heq ▸ h) (Nat.lt_irrefl _)

/-- The dice that are kept are the first ones of the ranking. -/
theorem keptRolls_perm (rolls : List Roll) (keep : Int) (high : Bool) :
    (keptRolls rolls (keepByRank rolls keep high)).Perm
      (((sorted high rolls.zipIdx).take keep.toNat).map (·.1)) := by
  have hnodup : (sorted high rolls.zipIdx).Nodup :=
    (List.mergeSort_perm rolls.zipIdx _).nodup_iff.mpr (nodup_zipIdx rolls)
  rw [keepByRank, keptRolls_flagsAt]
  apply List.Perm.map
  rw [List.perm_ext_iff_of_nodup ((nodup_zipIdx rolls).filter _)
    (hnodup.sublist (List.take_sublist _ _))]
  rintro ⟨roll, place⟩
  rw [List.mem_filter, decide_eq_true_iff]
  constructor
  · rintro ⟨hdie, hplace⟩
    rw [List.mem_zipIdx_iff_getElem?] at hdie
    exact (mem_take_ranking_iff hdie _).mp hplace
  · intro hfront
    have hdie := List.mem_mergeSort.mp (List.mem_of_mem_take hfront)
    exact ⟨hdie, (mem_take_ranking_iff (List.mem_zipIdx_iff_getElem?.mp hdie) _).mpr hfront⟩

theorem map_value_sorted (high : Bool) (rolls : List Roll) :
    (sorted high rolls.zipIdx).map (·.1.value) = rankedFaces high (rolls.map (·.value)) := by
  have hfaces := congrArg (List.map Roll.value) (List.zipIdx_map_fst 0 rolls)
  rw [List.map_map] at hfaces
  have hperm := (List.mergeSort_perm rolls.zipIdx fun a b =>
    ranksBefore high a.1.value b.1.value).map (·.1.value)
  refine eq_rankedFaces (hperm.trans (List.Perm.of_eq hfaces)) ?_
  rw [List.pairwise_map]
  exact List.pairwise_mergeSort (fun a b c => ranksBefore_trans high a.1.value b.1.value c.1.value)
    (fun a b => ranksBefore_total high a.1.value b.1.value) rolls.zipIdx

/-- What a selector leaves comes to the best sum of as many dice. -/
theorem total_eq_bestSum (selector : Selector) (amount : Int) (pool : Pool) (faces : List Int) :
    selector.total amount pool faces =
      bestSum selector.prefersHigh (selector.leaves amount pool).toNat faces := by
  have hperm := (keptRolls_perm (pool.rollsOf faces) (selector.leaves amount pool)
    selector.prefersHigh).map (·.value)
  rw [List.map_map, List.map_take] at hperm
  have hranked := map_value_sorted selector.prefersHigh (pool.rollsOf faces)
  rw [map_value_rollsOf] at hranked
  rw [bestSum, ← hranked]
  exact hperm.sum_eq

/-! ## 4. Evaluations -/

variable {pool : Pool} {selector : Selector} {amount : Int}

theorem fits_sum_of_sublist (hpool : pool.WellFormed) (h : pool.Shows faces)
    (hfits : Word.Fits faces.sum) (hsub : chosen.Sublist faces) : Word.Fits chosen.sum := by
  rcases (h.steady hpool (List.Sublist.refl faces)).1 with hnonneg | ⟨hsmall, hlow, hhigh⟩
  · have hsum : 0 ≤ chosen.sum := List.sum_nonneg fun face hface => hnonneg face (hsub.subset hface)
    have hle := hsub.sum_le_sum hnonneg
    simp only [Word.Fits, Word.least, Word.greatest] at hfits ⊢
    omega
  · have hface := fun face hface => hsmall face (hsub.subset hface)
    have hsum := chosen.sum_le_card_nsmul 1 fun face hmem => (hface face hmem).2
    have hsum' := chosen.card_nsmul_le_sum (-1) fun face hmem => (hface face hmem).1
    have hlength := hsub.length_le
    rw [nsmul_eq_mul] at hsum hsum'
    simp only [Word.Fits]
    omega

theorem dice_yields (hpool : pool.WellFormed) (h : pool.Shows faces) (hfits : Word.Fits faces.sum) :
    (Expr.dice pool).Yields faces faces.sum [] := by
  intro σ ε source state later hanswers
  rcases h.sumFrom_eq hpool (List.Sublist.refl faces) with ⟨hsum, -⟩ | ⟨-, hlarge⟩
  · exact ⟨_, evaluatePool_of_sumFrom hanswers hsum, rfl, rfl⟩
  · exact absurd hfits hlarge

/-- A selection succeeds as soon as the whole throw is a word. -/
theorem selected_yields (hpool : pool.WellFormed) (h : pool.Shows faces)
    (hfits : Word.Fits faces.sum) (selector : Selector) (amount : Int) :
    (Expr.selected selector amount pool).Yields faces (selector.total amount pool faces)
      (selector.keptFlags amount pool faces) := by
  intro σ ε source state later hanswers
  have hsub := keptFaces_sublist selector amount pool faces
  rcases h.sumFrom_eq hpool (List.Sublist.refl faces) with ⟨hsum, -⟩ | ⟨-, hlarge⟩
  · rcases h.sumFrom_eq hpool hsub with ⟨hkept, -⟩ | ⟨-, hlarge⟩
    · rw [evaluate]
      exact evaluateSelected_of_sumFrom hanswers hsum hkept
    · exact absurd (fits_sum_of_sublist hpool h hfits hsub) hlarge
  · exact absurd hfits hlarge

theorem Pool.Shows.of_perm (h : pool.Shows faces) (hperm : others.Perm faces) : pool.Shows others :=
  ⟨hperm.length_eq.trans h.1, fun face hface => h.2 face (hperm.subset hface)⟩

theorem Pool.Shows.set (h : pool.Shows faces) {place : Nat} {face raised : Int}
    (hface : faces[place]? = some face) (hle : face ≤ raised) (hgreatest : raised ≤ pool.greatestFace) :
    pool.Shows (faces.set place raised) := by
  have hleast := (h.2 face (List.mem_of_getElem? hface)).1
  refine ⟨by rw [List.length_set, h.1], fun shown hshown => ?_⟩
  rcases List.mem_or_eq_of_mem_set hshown with hold | rfl
  · exact h.2 shown hold
  · exact ⟨hleast.trans hle, hgreatest⟩

/-! ## 5. The laws -/

theorem bestSum_mem_choiceSums (high : Bool) (h : amount.toNat ≤ faces.length) :
    bestSum high amount.toNat faces ∈ choiceSums amount faces := by
  obtain ⟨chosen, hsub, hlength, hsum⟩ := exists_choice high h
  exact ⟨chosen, List.mem_sublistsLen.mpr ⟨hsub, hlength⟩, hsum⟩

theorem ranksBefore_of_mem_choiceSums (high : Bool) {sum : Int} (h : sum ∈ choiceSums amount faces) :
    ranksBefore high (bestSum high amount.toNat faces) sum = true := by
  obtain ⟨chosen, hchosen, rfl⟩ := h
  obtain ⟨hsub, hlength⟩ := List.mem_sublistsLen.mp hchosen
  rw [← hlength]
  exact ranksBefore_bestSum _ hsub

/-- Selections that leave as many dice from the same end leave the same dice. -/
theorem selected_yields_of_leaves_eq (hpool : pool.WellFormed) (h : pool.Shows faces)
    (hfits : Word.Fits faces.sum) {other : Selector} {rest : Int}
    (hleaves : other.leaves rest pool = selector.leaves amount pool)
    (hhigh : other.prefersHigh = selector.prefersHigh) :
    ∃ value kept, (Expr.selected selector amount pool).Yields faces value kept ∧
      (Expr.selected other rest pool).Yields faces value kept := by
  refine ⟨_, _, selected_yields hpool h hfits selector amount, ?_⟩
  have hother := selected_yields hpool h hfits other rest
  have htotal : other.total rest pool faces = selector.total amount pool faces := by
    rw [total_eq_bestSum, total_eq_bestSum, hleaves, hhigh]
  have hflags : other.keptFlags rest pool faces = selector.keptFlags amount pool faces := by
    rw [Selector.keptFlags, Selector.keptFlags, hleaves, hhigh]
  rwa [htotal, hflags] at hother

/-- The highest dice have the greatest sum of all choices of as many dice and the lowest ones the
least, and each of them makes up the whole throw together with what is left of it. Keeping some dice
is dropping the others, and leaves the same dice. The order of the throw does not matter, and no
selection comes to less where a die shows more. But of equal faces the same dice may be left whether
the highest ones are kept or dropped. -/
theorem selections_obey_laws :
    (∀ (pool : Pool) (amount : Int) (faces : List Int), (Expr.dice pool).IsBuilt → 1 ≤ amount →
      amount ≤ pool.count → pool.Shows faces → Word.Fits faces.sum →
        pool.SelectionLaws amount faces) ∧
      ∃ (pool : Pool) (amount : Int) (faces : List Int), (Expr.dice pool).IsBuilt ∧ 1 ≤ amount ∧
        amount ≤ pool.count ∧ pool.Shows faces ∧ Word.Fits faces.sum ∧
          Selector.keepHighest.keptFlags amount pool faces =
            Selector.dropHighest.keptFlags amount pool faces := by
  constructor
  · intro pool amount faces hbuilt hpos hle hshows hfits
    have hpool : pool.WellFormed := Expr.wellFormed_of_isBuilt hbuilt
    have hlength := hshows.1
    have hcount : amount.toNat ≤ faces.length := by omega
    have hrest : (pool.count - amount).toNat = faces.length - amount.toNat := by omega
    have htotal := fun selector => total_eq_bestSum selector amount pool faces
    refine {
      dice_yields := dice_yields hpool hshows hfits
      selected_yields := fun selector => selected_yields hpool hshows hfits selector amount
      highest_isGreatest := ?greatest
      lowest_isLeast := ?least
      highest_add_rest := ?highest
      lowest_add_rest := ?lowest
      highest_eq_rest := fun _ => selected_yields_of_leaves_eq hpool hshows hfits ?keptHighest rfl
      lowest_eq_rest := fun _ => selected_yields_of_leaves_eq hpool hshows hfits ?keptLowest rfl
      of_perm := ?perm
      of_raised := ?raised }
    case greatest =>
      rw [htotal]
      refine ⟨bestSum_mem_choiceSums true hcount, fun sum hsum => ?_⟩
      exact ranksBefore_true_iff.mp (ranksBefore_of_mem_choiceSums true hsum)
    case least =>
      rw [htotal]
      refine ⟨bestSum_mem_choiceSums false hcount, fun sum hsum => ?_⟩
      exact ranksBefore_false_iff.mp (ranksBefore_of_mem_choiceSums false hsum)
    case highest =>
      rw [htotal, htotal, Selector.leaves, Selector.leaves, hrest]
      exact bestSum_add_bestSum faces hcount
    case lowest =>
      have hwhole := bestSum_add_bestSum faces (Nat.sub_le faces.length amount.toNat)
      rw [Nat.sub_sub_self hcount, add_comm] at hwhole
      rw [htotal, htotal, Selector.leaves, Selector.leaves, hrest]
      exact hwhole
    case keptHighest => exact sub_sub_cancel pool.count amount
    case keptLowest => exact sub_sub_cancel pool.count amount
    case perm =>
      intro others hperm selector
      have hyields := selected_yields hpool (hshows.of_perm hperm) (hperm.sum_eq ▸ hfits) selector amount
      rw [total_eq_bestSum, bestSum_of_perm hperm, ← htotal] at hyields
      exact ⟨_, hyields⟩
    case raised =>
      intro place face raised hface hmore hgreatest hraised selector
      have hyields := selected_yields hpool (hshows.set hface hmore hgreatest) hraised selector amount
      refine ⟨_, _, hyields, ?_⟩
      have hleaves := @Expr.leaves_bounds selector amount pool hpos hle
      rw [htotal, total_eq_bestSum]
      exact bestSum_le_bestSum (forall₂_set hface hmore) _ (by omega)
  · refine ⟨{ count := 2, sides := 6 }, 1, [3, 3], ?_, by decide, by decide, ⟨rfl, by decide⟩, by decide,
      by cbv⟩
    exact Expr.isBuilt_of_wellFormed (by decide)

-- Two dice show the same.
def threeDice : Pool where
  count := 3
  sides := 6

/-- The two highest of a three, a five and a three come to eight, and what is left when the two
highest are dropped is the three that was thrown first. -/
theorem selections_obey_laws_three :
    (Expr.dice threeDice).IsBuilt ∧ (1 : Int) ≤ 2 ∧ 2 ≤ threeDice.count ∧
      threeDice.Shows [3, 5, 3] ∧ Word.Fits [3, 5, 3].sum ∧
      IsGreatest (choiceSums 2 [3, 5, 3]) 8 ∧
      ∃ outcome, (evaluate Source.scripted (.selected .dropHighest 2 threeDice)).runFrom [3, 5, 3] =
          (.ok outcome, []) ∧ outcome.value = .number 3 ∧ outcome.kept = [true, false, false] := by
  have hbuilt : (Expr.dice threeDice).IsBuilt := Expr.isBuilt_of_wellFormed (by decide)
  have hshows : threeDice.Shows [3, 5, 3] := ⟨rfl, by decide⟩
  have hlaws := selections_obey_laws.1 threeDice 2 [3, 5, 3] hbuilt (by decide) (by decide) hshows
    (by decide)
  have hhighest : Selector.keepHighest.total 2 threeDice [3, 5, 3] = 8 := by cbv
  have hrest : Selector.dropHighest.total 2 threeDice [3, 5, 3] = 3 := by cbv
  have hflags : Selector.dropHighest.keptFlags 2 threeDice [3, 5, 3] = [true, false, false] := by cbv
  obtain ⟨outcome, hrun, hvalue, hkept⟩ :=
    hlaws.selected_yields .dropHighest (List Int) SourceFault Source.scripted [3, 5, 3] [] rfl
  rw [hrest] at hvalue
  rw [hflags] at hkept
  exact ⟨hbuilt, by decide, by decide, hshows, by decide, hhighest ▸ hlaws.highest_isGreatest,
    outcome, hrun, hvalue, hkept⟩

end DiceFormula
