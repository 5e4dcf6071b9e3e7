import DiceFormula.Outcome.Follows
import DiceFormula.Proofs.Dice
import DiceFormula.Proofs.Selection
import DiceFormula.Proofs.WellFormed

/-!
# What an evaluation draws and gives

An evaluation that succeeds has asked its source for the ranges of the plan, one after another, and
its outcome follows the expression, with the answers of the source as the faces of its dice.
-/

namespace DiceFormula

variable {σ ε : Type} {source : Source σ ε} {state later : σ}

/-! ## 1. Lists -/

-- A repetition is the list of so many copies of its body.
theorem times_evaluate (source : Source σ ε) (body : Expr) (count : Nat) :
    times (evaluate source body) count = evaluateAll source (List.replicate count body) := by
  induction count with
  | zero => rfl
  | succ count ih => rw [times, ih, List.replicate_succ, evaluateAll]

namespace Expr

theorem planOfAll_eq_flatMap (items : List Expr) : planOfAll items = items.flatMap plan := by
  induction items with
  | nil => rfl
  | cons item items ih => rw [planOfAll, ih, List.flatMap_cons]

theorem plan_repeated (count : Int) (body : Expr) :
    (repeated count body).plan = planOfAll (List.replicate count.toNat body) := by
  rw [plan, planOfAll_eq_flatMap, List.flatMap_def, List.map_replicate]

end Expr

/-! ## 2. Successful evaluations -/

/-- A pool that succeeds has thrown the answers of the source, and their sum has been tested. -/
theorem exists_of_evaluatePool {pool : Pool} {outcome : Outcome}
    (h : (evaluatePool source pool).runFrom state = (.ok outcome, later)) :
    ∃ faces, source.answers (Expr.dice pool).plan state = (.ok faces, later) ∧
      sumFrom 0 faces = .ok faces.sum ∧
      outcome = .node (.dice pool) (.number faces.sum) (pool.rollsOf faces) [] [] := by
  obtain ⟨⟨rolls, sum⟩, middle, hthrow, h⟩ := Rolling.runFrom_bind_eq_ok_iff.mp h
  obtain ⟨rfl, rfl⟩ := Rolling.runFrom_pure_eq_ok_iff.mp h
  obtain ⟨faces, hanswers, rfl, hsum⟩ := answers_of_throwDice hthrow
  obtain rfl : sum = faces.sum := by
    rw [eq_of_sumFrom hsum, Int.zero_add]
  exact ⟨faces, hanswers, hsum, rfl⟩

/-- A selection that succeeds has thrown its pool, and the sum of the dice that are left has been
tested too. -/
theorem exists_of_evaluateSelected {selector : Selector} {amount : Int} {pool : Pool}
    {outcome : Outcome}
    (h : (evaluateSelected source selector amount pool).runFrom state = (.ok outcome, later)) :
    ∃ faces, source.answers (Expr.dice pool).plan state = (.ok faces, later) ∧
      sumFrom 0 faces = .ok faces.sum ∧
      sumFrom 0 (selector.keptFaces amount pool faces) =
        .ok (selector.keptFaces amount pool faces).sum ∧
      outcome = .node (.selected selector amount pool)
        (.number (selector.keptFaces amount pool faces).sum) (pool.rollsOf faces)
        (keepByRank (pool.rollsOf faces) (selector.leaves amount pool) selector.prefersHigh)
        [.node (.dice pool) (.number faces.sum) (pool.rollsOf faces) [] []] := by
  obtain ⟨thrown, middle, hpool, h⟩ := Rolling.runFrom_bind_eq_ok_iff.mp h
  obtain ⟨faces, hanswers, hsum, rfl⟩ := exists_of_evaluatePool hpool
  obtain ⟨total, _, hkept, h⟩ := Rolling.runFrom_bind_eq_ok_iff.mp h
  obtain ⟨htotal, rfl⟩ := Rolling.runFrom_ofExcept_eq_ok_iff.mp hkept
  obtain ⟨rfl, rfl⟩ := Rolling.runFrom_pure_eq_ok_iff.mp h
  have hexact : total = (selector.keptFaces amount pool faces).sum :=
    (eq_of_sumFrom htotal).trans (Int.zero_add _)
  subst hexact
  exact ⟨faces, hanswers, hsum, htotal, rfl⟩

theorem exactResult?_of_combine {op : Operator} {left right : Value} {result : Int}
    (h : combine op left right = .ok result) :
    ∃ x y, left = .number x ∧ right = .number y ∧ op.exactResult? x y = some result ∧
      Word.Fits result := by
  obtain ⟨x, hx, h⟩ := bind_eq_ok_iff.mp h
  obtain ⟨y, hy, h⟩ := bind_eq_ok_iff.mp h
  rw [mapError_eq_ok_iff] at hx hy h
  cases left with
  | list => exact nomatch hx
  | number a =>
    cases right with
    | list => exact nomatch hy
    | number b =>
      obtain rfl := Except.ok.inj hx
      obtain rfl := Except.ok.inj hy
      exact ⟨a, b, rfl, rfl, Operator.exactResult?_of_apply h⟩

/-- An operation that succeeds has evaluated its operands from left to right. -/
theorem exists_of_evaluate_binary {op : Operator} {left right : Expr} {outcome : Outcome}
    (h : (evaluate source (.binary op left right)).runFrom state = (.ok outcome, later)) :
    ∃ a b x y result middle, (evaluate source left).runFrom state = (.ok a, middle) ∧
      (evaluate source right).runFrom middle = (.ok b, later) ∧
      a.value = .number x ∧ b.value = .number y ∧ op.exactResult? x y = some result ∧
      Word.Fits result ∧
      outcome = .node (.binary op left right) (.number result) [] [] [a, b] := by
  rw [evaluate] at h
  obtain ⟨a, middle, hleft, h⟩ := Rolling.runFrom_bind_eq_ok_iff.mp h
  obtain ⟨b, last, hright, h⟩ := Rolling.runFrom_bind_eq_ok_iff.mp h
  obtain ⟨result, _, hcombine, h⟩ := Rolling.runFrom_bind_eq_ok_iff.mp h
  obtain ⟨hresult, rfl⟩ := Rolling.runFrom_ofExcept_eq_ok_iff.mp hcombine
  obtain ⟨rfl, rfl⟩ := Rolling.runFrom_pure_eq_ok_iff.mp h
  obtain ⟨x, y, hx, hy, hexact, hfits⟩ := exactResult?_of_combine hresult
  exact ⟨a, b, x, y, result, middle, hleft, hright, hx, hy, hexact, hfits, rfl⟩

/-! ## 3. Draws and outcomes -/

/-- An outcome of an expression: it follows the expression, and its dice show what the source
answered. -/
def Outcome.IsDrawn (source : Source σ ε) (e : Expr) (state : σ) (outcome : Outcome) (later : σ) :
    Prop :=
  source.answers e.plan state = (.ok outcome.faces, later) ∧ outcome.Follows e

theorem length_of_answers_dice {pool : Pool} {faces : List Int}
    (h : source.answers (Expr.dice pool).plan state = (.ok faces, later)) :
    faces.length = pool.count.toNat := by
  rw [Source.length_of_answers h, Expr.plan, List.length_replicate]

theorem isDrawn_of_evaluatePool {pool : Pool} {outcome : Outcome}
    (h : (evaluatePool source pool).runFrom state = (.ok outcome, later)) :
    outcome.IsDrawn source (.dice pool) state later := by
  obtain ⟨faces, hanswers, -, rfl⟩ := exists_of_evaluatePool h
  refine ⟨?_, .dice (length_of_answers_dice hanswers)⟩
  rw [Outcome.faces_dice]
  exact hanswers

theorem isDrawn_of_evaluateSelected {selector : Selector} {amount : Int} {pool : Pool}
    {outcome : Outcome} (hpos : 1 ≤ amount) (hle : amount ≤ pool.count)
    (h : (evaluateSelected source selector amount pool).runFrom state = (.ok outcome, later)) :
    outcome.IsDrawn source (.selected selector amount pool) state later := by
  obtain ⟨faces, hanswers, -, -, rfl⟩ := exists_of_evaluateSelected h
  have hlength := length_of_answers_dice hanswers
  have hrolls : (pool.rollsOf faces).length = pool.count.toNat :=
    (List.length_map _).trans hlength
  -- A selection leaves at most all dice, so as many flags are set as it asks for.
  have hcount := count_keepByRank (pool.rollsOf faces) (selector.leaves amount pool)
    selector.prefersHigh
  have hbounds := @Expr.leaves_bounds selector amount pool hpos hle
  refine ⟨?_, .selected (.dice hlength) rfl (length_keepByRank _ _ _) (by omega)⟩
  rw [Outcome.faces_selected]
  exact hanswers

theorem isDrawn_of_evaluateAll {items : List Expr} {outcomes : List Outcome}
    (hitems : ∀ item ∈ items, ∀ {state later : σ} {outcome : Outcome},
      (evaluate source item).runFrom state = (.ok outcome, later) →
        outcome.IsDrawn source item state later)
    (h : (evaluateAll source items).runFrom state = (.ok outcomes, later)) :
    source.answers (Expr.planOfAll items) state = (.ok (Outcome.facesOfAll outcomes), later) ∧
      Outcome.AllFollow outcomes items := by
  induction items generalizing state outcomes with
  | nil =>
    obtain ⟨rfl, rfl⟩ := Rolling.runFrom_pure_eq_ok_iff.mp h
    exact ⟨rfl, .nil⟩
  | cons item items ih =>
    rw [evaluateAll] at h
    obtain ⟨outcome, middle, hfirst, h⟩ := Rolling.runFrom_bind_eq_ok_iff.mp h
    obtain ⟨others, last, hrest, h⟩ := Rolling.runFrom_bind_eq_ok_iff.mp h
    obtain ⟨rfl, rfl⟩ := Rolling.runFrom_pure_eq_ok_iff.mp h
    obtain ⟨hitem, hitems⟩ := List.forall_mem_cons.mp hitems
    obtain ⟨hanswers, hfollows⟩ := hitem hfirst
    obtain ⟨hothers, hall⟩ := ih hitems hrest
    refine ⟨?_, .cons hfollows hall⟩
    exact Source.answers_append_eq_ok_iff.mpr ⟨_, _, middle, rfl, hanswers, hothers⟩

/-- An evaluation that succeeds draws the plan of its expression, and its outcome follows it. -/
theorem isDrawn_of_evaluate {e : Expr} (he : e.WellFormed) {outcome : Outcome}
    (h : (evaluate source e).runFrom state = (.ok outcome, later)) :
    outcome.IsDrawn source e state later := by
  induction e generalizing state later outcome with
  | constant value =>
    obtain ⟨rfl, rfl⟩ := Rolling.runFrom_pure_eq_ok_iff.mp h
    exact ⟨rfl, .constant⟩
  | dice pool => exact isDrawn_of_evaluatePool h
  | selected selector amount pool => exact isDrawn_of_evaluateSelected he.2.1 he.2.2 h
  | binary op left right ihleft ihright =>
    obtain ⟨a, b, x, y, result, middle, hleft, hright, hx, hy, hexact, -, rfl⟩ :=
      exists_of_evaluate_binary h
    obtain ⟨hdrawna, hfollowsa⟩ := ihleft he.1 hleft
    obtain ⟨hdrawnb, hfollowsb⟩ := ihright he.2.1 hright
    refine ⟨?_, .binary hfollowsa hfollowsb hx hy hexact⟩
    rw [Outcome.faces_binary]
    exact Source.answers_append_eq_ok_iff.mpr ⟨_, _, middle, rfl, hdrawna, hdrawnb⟩
  | repeated count body ih =>
    rw [evaluate, times_evaluate] at h
    obtain ⟨outcomes, middle, hall, h⟩ := Rolling.runFrom_bind_eq_ok_iff.mp h
    obtain ⟨rfl, rfl⟩ := Rolling.runFrom_pure_eq_ok_iff.mp h
    have hcopies : ∀ item ∈ List.replicate count.toNat body, ∀ {state later : σ} {outcome : Outcome},
        (evaluate source item).runFrom state = (.ok outcome, later) →
          outcome.IsDrawn source item state later :=
      List.forall_mem_replicate.mpr (.inr (ih he.1))
    obtain ⟨hanswers, hfollow⟩ := isDrawn_of_evaluateAll hcopies hall
    refine ⟨?_, .repeated hfollow⟩
    rw [Expr.plan_repeated]
    exact hanswers
  | sequence items ih =>
    rw [evaluate] at h
    obtain ⟨outcomes, middle, hall, h⟩ := Rolling.runFrom_bind_eq_ok_iff.mp h
    obtain ⟨rfl, rfl⟩ := Rolling.runFrom_pure_eq_ok_iff.mp h
    have hitems := Expr.areItems_iff.mp he.1
    obtain ⟨hanswers, hfollow⟩ :=
      isDrawn_of_evaluateAll (fun item hitem => ih item hitem (hitems item hitem).1) hall
    exact ⟨hanswers, .sequence hfollow⟩

/-! ## 4. Sources that answer alike -/

section Agreement

variable {τ : Type} {source' : Source τ ε} {related : σ → τ → Prop}

theorem agrees_evaluateAll {items : List Expr}
    (h : ∀ item ∈ items, Rolling.Agrees related (evaluate source item) (evaluate source' item)) :
    Rolling.Agrees related (evaluateAll source items) (evaluateAll source' items) := by
  induction items with
  | nil => exact Rolling.agrees_pure _
  | cons item items ih =>
    obtain ⟨hitem, hitems⟩ := List.forall_mem_cons.mp h
    rw [evaluateAll, evaluateAll]
    exact hitem.bind fun _ => (ih hitems).bind fun _ => Rolling.agrees_pure _

variable (hdraw : ∀ lower upper, Rolling.Agrees related (Rolling.draw source lower upper)
  (Rolling.draw source' lower upper))

include hdraw

theorem agrees_throwDice (pool : Pool) (count : Nat) (total : Int) :
    Rolling.Agrees related (throwDice source pool count total)
      (throwDice source' pool count total) := by
  induction count generalizing total with
  | zero => exact Rolling.agrees_pure _
  | succ count ih =>
    refine (hdraw _ _).bind fun value => (Rolling.agrees_ofExcept _).bind fun sum => ?_
    exact (ih sum).bind fun _ => Rolling.agrees_pure _

theorem agrees_evaluatePool (pool : Pool) :
    Rolling.Agrees related (evaluatePool source pool) (evaluatePool source' pool) :=
  (agrees_throwDice hdraw pool _ _).bind fun _ => Rolling.agrees_pure _

/-- An evaluation depends on its source only through the answers. -/
theorem agrees_evaluate (e : Expr) :
    Rolling.Agrees related (evaluate source e) (evaluate source' e) := by
  induction e with
  | constant value => exact Rolling.agrees_pure _
  | dice pool => exact agrees_evaluatePool hdraw pool
  | selected selector amount pool =>
    rw [evaluate, evaluate]
    refine (agrees_evaluatePool hdraw pool).bind fun thrown => ?_
    exact (Rolling.agrees_ofExcept _).bind fun _ => Rolling.agrees_pure _
  | binary op left right ihleft ihright =>
    rw [evaluate, evaluate]
    refine ihleft.bind fun a => ihright.bind fun b => ?_
    exact (Rolling.agrees_ofExcept _).bind fun _ => Rolling.agrees_pure _
  | repeated count body ih =>
    rw [evaluate, evaluate, times_evaluate, times_evaluate]
    have hcopies : ∀ item ∈ List.replicate count.toNat body,
        Rolling.Agrees related (evaluate source item) (evaluate source' item) :=
      List.forall_mem_replicate.mpr (.inr ih)
    exact (agrees_evaluateAll hcopies).bind fun _ => Rolling.agrees_pure _
  | sequence items ih =>
    rw [evaluate, evaluate]
    exact (agrees_evaluateAll ih).bind fun _ => Rolling.agrees_pure _

end Agreement

end DiceFormula
