import DiceFormula.Formula
import DiceFormula.Proofs.Draws
import DiceFormula.Proofs.Meaning

/-!
# What an evaluation costs

The load of an expression is what an evaluation of it comes to: one for every die that is thrown and
one for every constant among the nodes of the outcome. The limit on work is a limit on the load, and
counting the work in words is exact for every expression of a size that can be met.
-/

namespace DiceFormula

namespace Expr

/-! ## 1. Draws and constants -/

theorem loadOfAll_eq_sum (items : List Expr) : loadOfAll items = (items.map load).sum := by
  induction items with
  | nil => rfl
  | cons item items ih => rw [loadOfAll, ih, List.map_cons, List.sum_cons]

/-- A repetition comes to as much as so many copies of its body. -/
theorem load_repeated {count : Int} (h : 0 ≤ count) (body : Expr) :
    (repeated count body).load = loadOfAll (List.replicate count.toNat body) := by
  rw [load, loadOfAll_eq_sum, List.map_replicate, List.sum_replicate, nsmul_eq_mul,
    Int.toNat_of_nonneg h]

theorem length_planOfAll_le {items : List Expr}
    (h : ∀ item ∈ items, (item.plan.length : Int) ≤ item.load) :
    ((planOfAll items).length : Int) ≤ loadOfAll items := by
  induction items with
  | nil => exact Int.le_refl 0
  | cons item items ih =>
    obtain ⟨hitem, hitems⟩ := List.forall_mem_cons.mp h
    have hrest := ih hitems
    rw [planOfAll, loadOfAll, List.length_append]
    omega

/-- Every draw of the plan counts toward the load. -/
theorem length_plan_le {e : Expr} (h : e.WellFormed) : (e.plan.length : Int) ≤ e.load := by
  have hpool (pool : Pool) (hpool : pool.WellFormed) :
      ((Expr.dice pool).plan.length : Int) ≤ pool.count := by
    have hcount := hpool.count_pos
    rw [plan, List.length_replicate]
    omega
  induction e with
  | constant value => exact Int.zero_le_ofNat 1
  | dice pool => exact hpool pool h
  | selected selector amount pool => exact hpool pool h.1
  | binary op left right ihleft ihright =>
    have hleft := ihleft h.1
    have hright := ihright h.2.1
    rw [plan, load, List.length_append]
    omega
  | repeated count body ih =>
    have hcount := h.2.1
    rw [plan_repeated, load_repeated (by omega)]
    exact length_planOfAll_le (List.forall_mem_replicate.mpr (.inr (ih h.1)))
  | sequence items ih =>
    have hitems := areItems_iff.mp h.1
    exact length_planOfAll_le fun item hitem => ih item hitem (hitems item hitem).1

end Expr

/-- The dice and the constants of several outcomes add up. -/
theorem load_of_allFollow {outcomes : List Outcome} {items : List Expr}
    (hitems : ∀ item ∈ items, ∀ {outcome : Outcome}, outcome.Follows item →
      (outcome.faces.length + outcome.constantCount : Int) = item.load)
    (h : Outcome.AllFollow outcomes items) :
    ((Outcome.facesOfAll outcomes).length + Outcome.constantCountOfAll outcomes : Int) =
      Expr.loadOfAll items := by
  induction items generalizing outcomes with
  | nil =>
    cases h
    rfl
  | cons item items ih =>
    cases h with
    | cons hfirst hrest =>
      obtain ⟨hitem, hitems⟩ := List.forall_mem_cons.mp hitems
      have hload := hitem hfirst
      have hothers := ih hitems hrest
      rw [Outcome.facesOfAll, Outcome.constantCountOfAll, Expr.loadOfAll, List.length_append]
      push_cast
      omega

theorem load_of_follows_dice {pool : Pool} (hpool : pool.WellFormed) {outcome : Outcome}
    (h : outcome.Follows (.dice pool)) :
    (outcome.faces.length + outcome.constantCount : Int) = pool.count := by
  have hcount := hpool.count_pos
  cases h with
  | @dice _ faces hlength =>
    rw [Outcome.faces, map_value_rollsOf, hlength]
    show (pool.count.toNat + 0 : Int) = pool.count
    omega

/-- An outcome of an expression has as many dice and constants as its load says. -/
theorem load_of_follows {e : Expr} (he : e.WellFormed) {outcome : Outcome} (h : outcome.Follows e) :
    (outcome.faces.length + outcome.constantCount : Int) = e.load := by
  induction e generalizing outcome with
  | constant value =>
    cases h
    rfl
  | dice pool => exact load_of_follows_dice he h
  | selected selector amount pool =>
    cases h with
    | selected hthrown =>
      have hall := load_of_allFollow (List.forall_mem_singleton.mpr (load_of_follows_dice he.1))
        (.cons hthrown .nil)
      exact hall.trans (Int.add_zero _)
  | binary op left right ihleft ihright =>
    cases h with
    | binary ha hb =>
      have hitems : ∀ item ∈ [left, right], ∀ {outcome : Outcome}, outcome.Follows item →
          (outcome.faces.length + outcome.constantCount : Int) = item.load :=
        List.forall_mem_cons.mpr ⟨ihleft he.1, List.forall_mem_singleton.mpr (ihright he.2.1)⟩
      have hall := load_of_allFollow hitems (.cons ha (.cons hb .nil))
      exact hall.trans (congrArg (left.load + ·) (Int.add_zero _))
  | repeated count body ih =>
    have hcount := he.2.1
    cases h with
    | repeated hall =>
      rw [Expr.load_repeated (by omega)]
      exact load_of_allFollow (List.forall_mem_replicate.mpr (.inr (ih he.1))) hall
  | sequence items ih =>
    have hitems := Expr.areItems_iff.mp he.1
    cases h with
    | sequence hall =>
      exact load_of_allFollow (fun item hitem => ih item hitem (hitems item hitem).1) hall

/-! ## 2. Costs of an evaluation -/

/-- An evaluation that succeeds, whatever is drawn, makes so many draws and constants, and one that
fails makes no more draws than that. -/
structure Expr.Costs (e : Expr) (cost : Int) : Prop where
  of_ok : ∀ {σ ε : Type} {source : Source σ ε} {state later : σ} {draws : List (Draw ε)}
      {outcome : Outcome},
    (evaluate source.observed e).runFrom (state, []) = (.ok outcome, later, draws) →
      (draws.length + outcome.constantCount : Int) = cost
  of_error : ∀ {σ ε : Type} {source : Source σ ε} {state later : σ} {draws : List (Draw ε)}
      {fault : Fault ε},
    (evaluate source.observed e).runFrom (state, []) = (.error fault, later, draws) →
      (draws.length : Int) ≤ cost

theorem length_draws_le {σ ε : Type} {e : Expr} (he : e.WellFormed) {source : Source σ ε}
    {state later : σ} {draws : List (Draw ε)} {answer : Except (Fault ε) Outcome}
    (h : (evaluate source.observed e).runFrom (state, []) = (answer, later, draws)) :
    (draws.length : Int) ≤ e.load := by
  obtain ⟨-, hranges, -⟩ := ranges_of_evaluate he h
  have hle := hranges.length_le
  have hplan := Expr.length_plan_le he
  rw [List.length_map] at hle
  omega

theorem costs_load {e : Expr} (he : e.WellFormed) : e.Costs e.load where
  of_ok h := by
    obtain ⟨hrun, -, hranges⟩ := ranges_of_evaluate he h
    obtain ⟨hanswers, hfollows⟩ := isDrawn_of_evaluate he hrun
    -- There are as many draws as dice, since both are as many as the plan has ranges.
    have hdraws := congrArg List.length (hranges _ rfl)
    rw [List.length_map, ← Source.length_of_answers hanswers] at hdraws
    rw [hdraws]
    exact load_of_follows he hfollows
  of_error := length_draws_le he

/-! ## 3. Words -/

namespace Expr

theorem load_le_leafCountOfAll {items : List Expr}
    (h : ∀ item ∈ items, item.load ≤ maxWork * item.leafCount) :
    loadOfAll items ≤ maxWork * leafCountOfAll items := by
  induction items with
  | nil => exact Int.le_refl 0
  | cons item items ih =>
    obtain ⟨hitem, hitems⟩ := List.forall_mem_cons.mp h
    have hrest := ih hitems
    rw [loadOfAll, leafCountOfAll, Nat.cast_add, mul_add]
    omega

theorem leafCount_pos {e : Expr} (h : e.WellFormed) : 1 ≤ e.leafCount := by
  induction e with
  | constant | dice | selected => exact Nat.le_refl 1
  | binary op left right ihleft ihright =>
    have hleft := ihleft h.1
    rw [leafCount]
    omega
  | repeated count body ih => exact ih h.1
  | sequence items ih =>
    obtain ⟨hitems, hlength, -⟩ := h
    obtain ⟨first, rest, rfl⟩ := List.exists_cons_of_length_pos (Nat.lt_of_lt_of_le Nat.two_pos hlength)
    have hfirst := ih first List.mem_cons_self hitems.1
    rw [leafCount, leafCountOfAll]
    omega

theorem maxWork_le_leafCount {e : Expr} (h : e.WellFormed) : maxWork ≤ maxWork * e.leafCount := by
  have hleaves := leafCount_pos h
  exact le_mul_of_one_le_right (by decide) (by omega)

/-- A leaf counts for a pool at most or, with the repetitions of the list that it stands in, up to
the limit on work. -/
theorem load_le_leafCount {e : Expr} (h : e.WellFormed) : e.load ≤ maxWork * e.leafCount := by
  have hmax := maxWork_le_leafCount h
  have hdice : maxDice ≤ maxWork := by decide
  induction e with
  | constant => exact le_trans (by decide : (1 : Int) ≤ maxWork) hmax
  | dice pool =>
    have hcount : pool.count ≤ maxDice := Pool.WellFormed.count_le h
    exact le_trans hcount (le_trans hdice hmax)
  | selected selector amount pool => exact le_trans h.1.count_le (le_trans hdice hmax)
  | binary op left right ihleft ihright =>
    have hleft := ihleft h.1 (maxWork_le_leafCount h.1)
    have hright := ihright h.2.1 (maxWork_le_leafCount h.2.1)
    rw [load, leafCount, Nat.cast_add, mul_add]
    omega
  | repeated count body ih => exact le_trans h.2.2.2.2 hmax
  | sequence items ih => exact le_trans h.2.2 hmax

/-- So many leaves cannot count for more than a word. -/
theorem fits_of_leafCount {load : Int} {leaves : Nat} (hpos : 1 ≤ load)
    (hle : load ≤ maxWork * leaves) (hleaves : leaves < 2 ^ 46) : Word.Fits load := by
  simp only [Word.Fits, Word.least, Word.greatest, maxWork] at hle ⊢
  omega

theorem work_eq_some_load {e : Expr} (h : e.WellFormed) (hleaves : e.leafCount < 2 ^ 46) :
    e.work = some e.load := by
  rw [work_eq_fit_load h]
  exact Word.fit_of_fits (fits_of_leafCount (load_pos h) (load_le_leafCount h) hleaves)

/-- The items of a sequence are counted before their limit is checked. -/
theorem work_sequence_eq_some {items : List Expr} (h : ∀ item ∈ items, item.WellFormed)
    (hlength : 2 ≤ items.length) (hleaves : leafCountOfAll items < 2 ^ 46) :
    (sequence items).work = some (items.map load).sum := by
  have hpos : ∀ item ∈ items, 1 ≤ item.load := fun item hitem => load_pos (h item hitem)
  have hcount := length_le_loadOfAll hpos
  have hle := load_le_leafCountOfAll fun item hitem => load_le_leafCount (h item hitem)
  rw [work, workOfAll_eq_fit hpos fun item hitem => work_eq_fit_load (h item hitem),
    ← loadOfAll_eq_sum]
  exact Word.fit_of_fits (fits_of_leafCount (by omega) hle hleaves)

/-! ## 4. The limit on work -/

theorem load_le_maxWork {e : Expr} (h : e.WellFormed) (hlist : e.yieldsList = true) :
    e.load ≤ maxWork := by
  cases e with
  | repeated count body => exact h.2.2.2.2
  | sequence items => exact h.2.2
  | constant | dice | selected | binary => exact nomatch hlist

/-- The limit on work is one on what evaluations come to. Every expression that is built costs its
load, which is counted in words without a wrap as long as the expression has fewer than two to the
power of 46 leaves. A body is repeated, and items are put in a sequence, exactly if the cost of all
of them is within the limit. So a compiled text that yields a list never throws more dice than
that. -/
theorem maxWork_limits_costs :
    (∀ e : Expr, e.IsBuilt → e.Costs e.load ∧ (e.leafCount < 2 ^ 46 → e.work = some e.load)) ∧
      (∀ (count : Int) (body : Expr), body.IsBuilt → body.isSequence = false → 1 ≤ count →
        count ≤ maxRepetitions →
        ((∃ e, Build.repeated count (some body) = .ok e) ↔ count * body.load ≤ maxWork)) ∧
      (∀ items : List Expr, (∀ item ∈ items, item.IsBuilt ∧ item.isSequence = false) →
        2 ≤ items.length →
        ((∃ e, Build.sequence (items.map some) = .ok e) ↔ (items.map load).sum ≤ maxWork) ∧
        (leafCountOfAll items < 2 ^ 46 → (sequence items).work = some (items.map load).sum)) ∧
      ∀ (text : Bytes) (e : Expr), compile text = .ok e → e.yieldsList = true →
        ∀ {σ ε : Type} (source : Source σ ε) (state : σ), ∃ answer later draws,
          (evaluate source.observed e).runFrom (state, []) = (answer, later, draws) ∧
            (draws.length : Int) ≤ maxWork := by
  refine ⟨fun e he => ?_, fun count body hbody hsequence hpos hle => ?_,
    fun items hitems hlength => ?_, fun text e hcompile hlist σ ε source state => ?_⟩
  · have hfit := wellFormed_of_isBuilt he
    exact ⟨costs_load hfit, work_eq_some_load hfit⟩
  · rw [← repeated_isTooMuchWork_iff (wellFormed_of_isBuilt hbody) hpos]
    simp only [repeated_eq_ok_iff]
    exact ⟨fun h => h.choose_spec.2.2.1, fun h => ⟨_, ⟨hpos, hle⟩, hsequence, h, rfl⟩⟩
  · have hfit : ∀ item ∈ items, item.WellFormed :=
      fun item hitem => wellFormed_of_isBuilt (hitems item hitem).1
    refine ⟨?_, work_sequence_eq_some hfit hlength⟩
    rw [← loadOfAll_eq_sum, ← sequence_isTooMuchWork_iff hfit hlength]
    simp only [sequence_eq_ok_iff]
    exact ⟨fun h => h.choose_spec.2.2.1,
      fun h => ⟨_, hlength, fun item hitem => (hitems item hitem).2, h, rfl⟩⟩
  · have hfit := wellFormed_of_isBuilt (isBuilt_of_compile hcompile)
    exact ⟨_, _, _, rfl, le_trans (length_draws_le hfit rfl) (load_le_maxWork hfit hlist)⟩

-- A hundred dice and constants at a time.
def hundred : Expr :=
  .binary .add (.dice { count := 99, sides := 6 }) (.constant 1)

/-- A thousand times a hundred is just within the limit, and nothing goes beside it. -/
theorem maxWork_limits_hundred :
    hundred.IsBuilt ∧ hundred.Costs 100 ∧ hundred.work = some 100 ∧
      (∃ e, Build.repeated 1000 (some hundred) = .ok e) ∧
      (¬ ∃ e, Build.sequence ([repeated 1000 hundred, constant 1].map some) = .ok e) ∧
      compile (bytes "1000 (99d6 + 1)") = .ok (repeated 1000 hundred) ∧
      ∃ answer later draws, (evaluate Source.least.observed (repeated 1000 hundred)).runFrom ((), []) =
        (answer, later, draws) ∧ (draws.length : Int) ≤ maxWork := by
  obtain ⟨hcosts, hrepeated, hsequence, hdraws⟩ := maxWork_limits_costs
  have hbuilt : hundred.IsBuilt := isBuilt_of_wellFormed (by decide)
  have hitems : ∀ item ∈ [repeated 1000 hundred, constant 1],
      item.IsBuilt ∧ item.isSequence = false := by
    refine List.forall_mem_cons.mpr ⟨⟨isBuilt_of_wellFormed (by decide), rfl⟩, ?_⟩
    exact List.forall_mem_singleton.mpr ⟨isBuilt_of_wellFormed (by decide), rfl⟩
  have hcompile : compile (bytes "1000 (99d6 + 1)") = .ok (repeated 1000 hundred) := by cbv
  refine ⟨hbuilt, (hcosts hundred hbuilt).1, (hcosts hundred hbuilt).2 (by decide),
    (hrepeated 1000 hundred hbuilt rfl (by decide) (by decide)).mpr (by decide), fun h => ?_, hcompile,
    hdraws _ _ hcompile rfl Source.least ()⟩
  exact absurd ((hsequence _ hitems (by decide)).1.mp h) (by decide)

end Expr

end DiceFormula
