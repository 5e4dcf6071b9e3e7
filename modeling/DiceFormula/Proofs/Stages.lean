import DiceFormula.Expr.Stages
import DiceFormula.Proofs.Exactness
import DiceFormula.Proofs.Traces

/-!
# Which stages are shown

The stages of a line are compared as texts, and a stage that says nothing new is left out. The
comparisons come out as the expression says: only thrown dice put a bracket into a text, no number
has a blank in it, and every step has one.
-/

namespace DiceFormula

/-! ## 1. Steps -/

/-- The bytes of steps. -/
def stepBytes : Bytes :=
  bytes "0123456789+-*/ "

theorem ofInt_subset_stepBytes (i : Int) : Decimal.ofInt i ⊆ stepBytes :=
  List.Subset.trans (ofInt_subset_numberBytes i) (by decide)

theorem blank_notMem_ofInt (i : Int) : ascii ' ' ∉ Decimal.ofInt i :=
  fun hmem => absurd (ofInt_subset_numberBytes i hmem) (by decide)

namespace Expr

theorem sumText_subset (faces : List Int) : sumText faces ⊆ stepBytes := by
  refine joinWith_subset (by decide) fun part hpart => ?_
  obtain ⟨face, -, rfl⟩ := List.mem_map.mp hpart
  exact ofInt_subset_stepBytes face

theorem blank_mem_sumText {faces : List Int} (h : 2 ≤ faces.length) :
    ascii ' ' ∈ sumText faces := by
  match faces, h with
  | face :: next :: rest, _ =>
    rw [sumText, List.map_cons, List.map_cons, joinWith_cons_cons]
    exact List.mem_append_left _ (List.mem_append_right _ (by decide))

/-- A sum of no dice is not written down, and a single face is the sum itself. -/
theorem sumText_of_length_lt {faces : List Int} (h : faces.length < 2) :
    sumText faces = [] ∨ sumText faces = Decimal.ofInt faces.sum := by
  match faces, h with
  | [], _ => exact .inl rfl
  | [face], _ =>
    rw [List.sum_singleton]
    exact .inr rfl

theorem length_keptFaces {selector : Selector} {amount : Int} {pool : Pool} {faces : List Int}
    (hpos : 1 ≤ amount) (hle : amount ≤ pool.count) (h : faces.length = pool.count.toNat) :
    ((selector.keptFaces amount pool faces).length : Int) = selector.leaves amount pool := by
  have hbounds := @leaves_bounds selector amount pool hpos hle
  have hrolls : (pool.rollsOf faces).length = pool.count.toNat := (List.length_map _).trans h
  have hcount := count_keepByRank (pool.rollsOf faces) (selector.leaves amount pool)
    selector.prefersHigh
  rw [Selector.keptFaces, List.length_map, length_keptRolls (length_keepByRank _ _ _), hcount,
    hrolls]
  omega

/-- A step that is one has a blank in it, and no brackets. -/
theorem StepsTo.blank_mem {e : Expr} {faces : List Int} {step : Bytes} (h : StepsTo e faces step)
    (he : e.WellFormed) (hlength : faces.length = e.plan.length) (hstep : e.hasStep = true) :
    ascii ' ' ∈ step ∧ step ⊆ stepBytes := by
  cases h with
  | dice =>
    have hcount := of_decide_eq_true hstep
    rw [plan, List.length_replicate] at hlength
    exact ⟨blank_mem_sumText (by omega), sumText_subset _⟩
  | @selected selector amount pool =>
    have hleaves := of_decide_eq_true hstep
    rw [plan, List.length_replicate] at hlength
    have hkept := @length_keptFaces selector amount pool faces he.2.1 he.2.2 hlength
    exact ⟨blank_mem_sumText (by omega), sumText_subset _⟩
  | @binary op =>
    have hsymbol : [op.symbol] ⊆ stepBytes := by cases op <;> decide
    simp only [List.append_subset]
    refine ⟨?_, ⟨⟨⟨ofInt_subset_stepBytes _, by decide⟩, hsymbol⟩, by decide⟩,
      ofInt_subset_stepBytes _⟩
    exact List.mem_append_left _ (List.mem_append_right _ (by decide))

theorem isConstant_of_hasStep {e : Expr} (h : e.hasStep = true) : e.isConstant = false := by
  cases e with
  | constant => exact nomatch h
  | _ => rfl

/-- A number without a step is a constant or thrown. -/
theorem throwsDice_of_not_hasStep {e : Expr} (hnumber : e.yieldsList = false)
    (hstep : e.hasStep = false) (hconstant : e.isConstant = false) : e.throwsDice = true := by
  cases e with
  | constant => exact nomatch hconstant
  | dice | selected => rfl
  | binary => exact nomatch hstep
  | repeated => exact nomatch hnumber
  | sequence => exact nomatch hnumber

/-! ## 2. Expressions that throw dice -/

theorem anyThrowsDice_eq_false_iff {items : List Expr} :
    anyThrowsDice items = false ↔ ∀ item ∈ items, item.throwsDice = false := by
  induction items with
  | nil => exact ⟨fun _ item hitem => (nomatch hitem), fun _ => rfl⟩
  | cons item items ih => rw [anyThrowsDice, Bool.or_eq_false_iff, ih, List.forall_mem_cons]

/-- Dice are thrown where draws are planned. -/
theorem plan_eq_nil_iff {e : Expr} (he : e.WellFormed) : e.plan = [] ↔ e.throwsDice = false := by
  have hpool : ∀ {pool : Pool}, pool.WellFormed → (dice pool).plan ≠ [] := fun hpool hplan => by
    have hpos := hpool.count_pos
    rw [plan, List.replicate_eq_nil_iff] at hplan
    omega
  induction e with
  | constant value => exact ⟨fun _ => rfl, fun _ => rfl⟩
  | dice pool => exact ⟨fun hplan => absurd hplan (hpool he), fun h => Bool.noConfusion h⟩
  | selected selector amount pool =>
    exact ⟨fun hplan => absurd hplan (hpool he.1), fun h => Bool.noConfusion h⟩
  | binary op left right ihleft ihright =>
    rw [plan, List.append_eq_nil_iff, throwsDice, Bool.or_eq_false_iff]
    exact and_congr (ihleft he.1) (ihright he.2.1)
  | repeated count body ih =>
    have hcount : count.toNat ≠ 0 := by
      have hpos := he.2.1
      omega
    rw [plan, List.flatten_eq_nil_iff, List.forall_mem_replicate, or_iff_right hcount, throwsDice]
    exact ih he.1
  | sequence items ih =>
    have hitems := areItems_iff.mp he.1
    rw [plan, planOfAll_eq_flatMap, List.flatMap_eq_nil_iff, throwsDice, anyThrowsDice_eq_false_iff]
    exact forall₂_congr fun item hitem => ih item hitem (hitems item hitem).1

end Expr

/-! ## 3. The stages of an evaluation -/

namespace Outcome

variable {σ ε : Type} {source : Source σ ε} {state later : σ} {e : Expr} {outcome : Outcome}

/-- The faces are filled in as they were drawn. -/
theorem thrownText_of_evaluate (he : e.WellFormed) (hnumber : e.yieldsList = false)
    (h : (evaluate source e).runFrom state = (.ok outcome, later)) :
    outcome.thrownText = e.filledText outcome.faces := by
  induction e generalizing state later outcome with
  | constant value =>
    obtain ⟨rfl, rfl⟩ := Rolling.runFrom_pure_eq_ok_iff.mp h
    rfl
  | dice pool =>
    obtain ⟨faces, -, -, rfl⟩ := exists_of_evaluatePool h
    rw [faces_dice, thrownText, formatFaces, map_ofInt_rollsOf, Expr.filledText]
  | selected selector amount pool =>
    obtain ⟨faces, -, -, -, rfl⟩ := exists_of_evaluateSelected h
    rw [faces_selected, thrownText, formatFaces, map_ofInt_rollsOf, Expr.filledText]
  | binary op left right ihleft ihright =>
    obtain ⟨hleft, hright, hleftNumber, hrightNumber⟩ := he
    obtain ⟨a, b, x, y, result, middle, ha, hb, -, -, -, -, rfl⟩ := exists_of_evaluate_binary h
    -- The left operand takes as many faces as it plans draws, and the right one takes the rest.
    have hlength : a.faces.length = left.plan.length :=
      Source.length_of_answers (isDrawn_of_evaluate hleft ha).1
    rw [faces_binary, thrownText, Expr.filledText, ← hlength, List.take_left, List.drop_left,
      ihleft hleft hleftNumber ha, ihright hright hrightNumber hb]
  | repeated => exact Bool.noConfusion hnumber
  | sequence => exact Bool.noConfusion hnumber

theorem formatSum_eq (rolls : List Roll) :
    formatSum rolls = Expr.sumText (rolls.map (·.value)) := by
  rw [Expr.sumText, List.map_map]
  rfl

/-- The last step is the one of the expression. -/
theorem stepsTo_of_evaluate (he : e.WellFormed) (hstep : e.hasStep = true)
    (h : (evaluate source e).runFrom state = (.ok outcome, later)) :
    e.StepsTo outcome.faces outcome.lastStep := by
  cases e with
  | dice pool =>
    obtain ⟨faces, -, -, rfl⟩ := exists_of_evaluatePool h
    rw [faces_dice, lastStep, formatSum_eq, map_value_rollsOf]
    exact .dice
  | selected selector amount pool =>
    obtain ⟨faces, -, -, -, rfl⟩ := exists_of_evaluateSelected h
    rw [faces_selected, lastStep, formatSum_eq]
    exact .selected
  | binary op left right =>
    obtain ⟨a, b, x, y, result, middle, ha, hb, hx, hy, -, -, rfl⟩ := exists_of_evaluate_binary h
    have hcomesa := Expr.comesTo_of_evaluate he.1 ha
    have hcomesb := Expr.comesTo_of_evaluate he.2.1 hb
    rw [hx] at hcomesa
    rw [hy] at hcomesb
    rw [faces_binary, lastStep, hx, hy]
    exact .binary hcomesa hcomesb
  | constant | repeated | sequence => exact nomatch hstep

/-- Where there is no step of its own, nothing is written down for it but perhaps the value. -/
theorem lastStep_of_not_hasStep (he : e.WellFormed) (hnumber : e.yieldsList = false)
    (hstep : e.hasStep = false)
    (h : (evaluate source e).runFrom state = (.ok outcome, later)) :
    outcome.lastStep = [] ∨ outcome.lastStep = outcome.value.format := by
  cases e with
  | constant value =>
    obtain ⟨rfl, rfl⟩ := Rolling.runFrom_pure_eq_ok_iff.mp h
    exact .inl rfl
  | dice pool =>
    obtain ⟨faces, hanswers, -, rfl⟩ := exists_of_evaluatePool h
    have hcount := of_decide_eq_false hstep
    have hlength := length_of_answers_dice hanswers
    rw [lastStep, formatSum_eq, map_value_rollsOf]
    exact Expr.sumText_of_length_lt (by omega)
  | selected selector amount pool =>
    obtain ⟨faces, hanswers, -, -, rfl⟩ := exists_of_evaluateSelected h
    have hleaves := of_decide_eq_false hstep
    have hkept := @Expr.length_keptFaces selector amount pool faces he.2.1 he.2.2
      (length_of_answers_dice hanswers)
    have hfew : (selector.keptFaces amount pool faces).length < 2 := by omega
    rw [lastStep, formatSum_eq]
    exact Expr.sumText_of_length_lt hfew
  | binary => exact nomatch hstep
  | repeated => exact nomatch hnumber
  | sequence => exact nomatch hnumber

-- The text of an operation has parentheses around it, and thrown dice have brackets.
theorem thrownText_not_subset (hnumber : e.yieldsList = false) (hconstant : e.isConstant = false)
    (h : (evaluate source e).runFrom state = (.ok outcome, later)) :
    ¬ outcome.thrownText ⊆ stepBytes := by
  cases e with
  | constant => exact nomatch hconstant
  | dice pool =>
    obtain ⟨faces, -, -, rfl⟩ := exists_of_evaluatePool h
    exact fun hsubset => absurd (hsubset List.mem_cons_self) (by decide)
  | selected selector amount pool =>
    obtain ⟨faces, -, -, -, rfl⟩ := exists_of_evaluateSelected h
    exact fun hsubset => absurd (hsubset List.mem_cons_self) (by decide)
  | binary op left right =>
    obtain ⟨a, b, x, y, result, middle, -, -, -, -, -, -, rfl⟩ := exists_of_evaluate_binary h
    exact fun hsubset => absurd (hsubset List.mem_cons_self) (by decide)
  | repeated => exact nomatch hnumber
  | sequence => exact nomatch hnumber

theorem blank_mem_lastStep (he : e.WellFormed) (hstep : e.hasStep = true)
    (h : (evaluate source e).runFrom state = (.ok outcome, later)) :
    ascii ' ' ∈ outcome.lastStep ∧ outcome.lastStep ⊆ stepBytes :=
  (stepsTo_of_evaluate he hstep h).blank_mem he
    (Source.length_of_answers (isDrawn_of_evaluate he h).1) hstep

section Number

variable (he : e.WellFormed) (hnumber : e.yieldsList = false)
  (h : (evaluate source e).runFrom state = (.ok outcome, later))

include he hnumber h

/-- The thrown dice are shown where there are some. -/
theorem thrownText_eq_text_iff :
    outcome.thrownText = e.text ↔ e.throwsDice = false := by
  have hfollows := (isDrawn_of_evaluate he h).2
  rw [← Expr.plan_eq_nil_iff he]
  constructor
  · intro heq
    by_contra hplan
    have hmem := bracket_mem_thrownText hnumber he hfollows hplan
    rw [heq] at hmem
    exact absurd (Expr.text_subset e hmem) (by decide)
  · exact fun hplan => (thrownText_of_plan_eq_nil he hnumber hfollows hplan).2

-- A value is told from a step by the blanks, and from thrown dice by the brackets.
theorem blank_notMem_format :
    ascii ' ' ∉ outcome.value.format ∧ outcome.value.format ⊆ stepBytes := by
  obtain ⟨value, hvalue⟩ := Expr.isNumber_of_comesTo (Expr.comesTo_of_evaluate he h) hnumber
  rw [hvalue]
  exact ⟨blank_notMem_ofInt value, ofInt_subset_stepBytes value⟩

theorem lastStep_ne_format (hstep : e.hasStep = true) :
    outcome.lastStep ≠ outcome.value.format := by
  intro heq
  have hblank := (blank_mem_lastStep he hstep h).1
  rw [heq] at hblank
  exact (blank_notMem_format he hnumber h).1 hblank

/-- The last step is left out where the expression has none. -/
theorem omitted_eq :
    (outcome.lastStep.isEmpty || decide (outcome.lastStep = outcome.thrownText) ||
      decide (outcome.lastStep = outcome.value.format)) = !e.hasStep := by
  cases hstep : e.hasStep with
  | false =>
    rcases lastStep_of_not_hasStep he hnumber hstep h with heq | heq
    · rw [heq]
      rfl
    · rw [decide_eq_true heq, Bool.or_true]
      rfl
  | true =>
    obtain ⟨hblank, hsubset⟩ := blank_mem_lastStep he hstep h
    have hempty : outcome.lastStep.isEmpty = false :=
      List.isEmpty_eq_false_iff.mpr (List.ne_nil_of_mem hblank)
    have hthrown : outcome.lastStep ≠ outcome.thrownText := fun heq =>
      thrownText_not_subset hnumber (Expr.isConstant_of_hasStep hstep) h (heq ▸ hsubset)
    rw [hempty, decide_eq_false hthrown, decide_eq_false (lastStep_ne_format he hnumber h hstep)]
    rfl

/-- Which stages there are, and what they show. -/
theorem stages_of_evaluate :
    outcome.stages = e.text :: ((if e.throwsDice then [e.filledText outcome.faces] else []) ++
      if e.hasStep then [outcome.lastStep] else []) := by
  have hiff := thrownText_eq_text_iff he hnumber h
  unfold stages
  simp only [omitted_eq he hnumber h]
  rw [expr_of_follows (isDrawn_of_evaluate he h).2, ← thrownText_of_evaluate he hnumber h]
  cases hthrows : e.throwsDice with
  | false =>
    rw [if_pos (hiff.mpr hthrows)]
    cases e.hasStep <;> rfl
  | true =>
    have hne : outcome.thrownText ≠ e.text := fun heq => by
      rw [hiff.mp heq] at hthrows
      exact nomatch hthrows
    rw [if_neg hne]
    cases e.hasStep <;> rfl

/-- The last stage shows the value only if there is nothing to calculate. -/
theorem getLast?_stages_iff :
    outcome.stages.getLast? = some outcome.value.format ↔ e.isConstant = true := by
  rw [stages_of_evaluate he hnumber h]
  cases hconstant : e.isConstant with
  | true =>
    cases e with
    | constant value =>
      obtain ⟨rfl, rfl⟩ := Rolling.runFrom_pure_eq_ok_iff.mp h
      exact ⟨fun _ => rfl, fun _ => rfl⟩
    | _ => exact nomatch hconstant
  | false =>
    refine iff_of_false ?_ Bool.false_ne_true
    cases hstep : e.hasStep with
    | true =>
      rw [if_pos rfl, ← List.cons_append, List.getLast?_concat]
      exact fun heq => lastStep_ne_format he hnumber h hstep (Option.some.inj heq)
    | false =>
      have hthrows := Expr.throwsDice_of_not_hasStep hnumber hstep hconstant
      rw [if_pos hthrows, ← thrownText_of_evaluate he hnumber h]
      intro heq
      have hthrown : outcome.thrownText = outcome.value.format := Option.some.inj heq
      have hformat := (blank_notMem_format he hnumber h).2
      exact thrownText_not_subset hnumber hconstant h (hthrown ▸ hformat)

end Number

end Outcome

/-! ## 4. Lines -/

theorem joinWith_optional (separator first second third : Bytes) (hasSecond hasThird : Bool) :
    joinWith separator (first :: ((if hasSecond then [second] else []) ++
        if hasThird then [third] else [])) =
      first ++ (if hasSecond then separator ++ second else []) ++
        (if hasThird then separator ++ third else []) := by
  cases hasSecond <;> cases hasThird <;> simp [joinWith_cons_cons]

variable {σ ε : Type} {source : Source σ ε} {state later : σ}

/-- The line of a number is told by the expression and the draws: its text, behind that the drawn
faces if dice are thrown, then its step if it has one, and the value unless it is a constant. -/
theorem trace_shows_stages {e : Expr} {outcome : Outcome} (he : e.IsBuilt)
    (hnumber : e.yieldsList = false)
    (h : (evaluate source e).runFrom state = (.ok outcome, later)) :
    ∃ faces value step, source.answers e.plan state = (.ok faces, later) ∧
      e.ComesTo faces (.number value) ∧ outcome.value = .number value ∧
      (e.hasStep = true → e.StepsTo faces step) ∧
      outcome.trace = .ok (e.lineText faces step value) := by
  have hfit := Expr.wellFormed_of_isBuilt he
  have hanswers := (isDrawn_of_evaluate hfit h).1
  have hcomes := Expr.comesTo_of_evaluate hfit h
  obtain ⟨value, hvalue⟩ := Expr.isNumber_of_comesTo hcomes hnumber
  rw [hvalue] at hcomes
  refine ⟨outcome.faces, value, outcome.lastStep, hanswers, hcomes, hvalue,
    fun hstep => Outcome.stepsTo_of_evaluate hfit hstep h, ?_⟩
  have hlist : outcome.value.isList = false := congrArg Value.isList hvalue
  have hlast := Outcome.getLast?_stages_iff hfit hnumber h
  rw [Outcome.trace, hlist, if_neg Bool.false_ne_true]
  simp only [hlast]
  rw [Outcome.stages_of_evaluate hfit hnumber h, joinWith_optional, hvalue, Expr.lineText]
  cases e.isConstant with
  | true => simp
  | false => simp [Value.format]

/-- The two better dice of three, less a negative number. -/
def betterTwo : Expr :=
  .binary .sub (.selected .dropLowest 1 { count := 3, sides := 6 }) (.constant (-2))

theorem trace_shows_stages_betterTwo :
    ∃ outcome later, betterTwo.IsBuilt ∧ betterTwo.yieldsList = false ∧
      (evaluate Source.scripted betterTwo).runFrom [4, 1, 5] = (.ok outcome, later) ∧
      outcome.trace = .ok (bytes "(3d6 dl1 - -2) => ([4, 1, 5] - -2) => 9 - -2 = 11") ∧
      ∃ faces value step, Source.scripted.answers betterTwo.plan [4, 1, 5] = (.ok faces, later) ∧
        betterTwo.ComesTo faces (.number value) ∧ betterTwo.StepsTo faces step ∧
        outcome.trace = .ok (betterTwo.lineText faces step value) := by
  have hbuilt : betterTwo.IsBuilt := Expr.isBuilt_of_wellFormed (by decide)
  obtain ⟨outcome, later, hrun, hshown⟩ : ∃ outcome later,
      (evaluate Source.scripted betterTwo).runFrom [4, 1, 5] = (.ok outcome, later) ∧
        outcome.trace = .ok (bytes "(3d6 dl1 - -2) => ([4, 1, 5] - -2) => 9 - -2 = 11") := by
    refine ⟨?outcome, ?later, ?run, ?shown⟩
    case run =>
      cbv
      rfl
    case shown => decide +kernel
  obtain ⟨faces, value, step, hanswers, hcomes, -, hstep, htrace⟩ :=
    trace_shows_stages hbuilt rfl hrun
  exact ⟨outcome, later, hbuilt, rfl, hrun, hshown, faces, value, step, hanswers, hcomes, hstep rfl,
    htrace⟩

end DiceFormula
