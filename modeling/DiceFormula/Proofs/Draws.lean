import DiceFormula.Proofs.Evaluation
import DiceFormula.Proofs.Traces

/-!
# Draws follow the plan

An evaluation asks its source for the ranges of the plan and for nothing else. Two evaluations of
one expression are followed side by side: as long as their sources are related along what is left of
the plan, each step gives the same in both. One instance of this is a source beside the same source
with its draws kept, another are two sources that answer alike.
-/

namespace DiceFormula

variable {σ τ ε : Type}

/-! ## 1. Computations in step -/

namespace Rolling

variable {α β : Type}

/-- Two runs end alike: with the same outcome in related states, or with the same fault. -/
inductive EndAlike (related : σ → τ → Prop) (stopped : Fault ε → σ → τ → Prop) :
    Except (Fault ε) α × σ → Except (Fault ε) α × τ → Prop where
  | ok {a : α} {later : σ} {later' : τ} : related later later' →
      EndAlike related stopped (.ok a, later) (.ok a, later')
  | error {fault : Fault ε} {later : σ} {later' : τ} : stopped fault later later' →
      EndAlike related stopped (.error fault, later) (.error fault, later')

theorem EndAlike.fst_eq {related : σ → τ → Prop} {stopped : Fault ε → σ → τ → Prop}
    {run : Except (Fault ε) α × σ} {run' : Except (Fault ε) α × τ} (h : EndAlike related stopped run run') :
    run.1 = run'.1 := by
  cases h <;> rfl

variable {related : List Range → σ → τ → Prop} {stopped : Fault ε → σ → τ → Prop}

/-- Two computations are in step along a plan: from states that are related for the plan and a rest,
they end alike, and where they succeed their states are related for the rest. -/
def InStep (related : List Range → σ → τ → Prop) (stopped : Fault ε → σ → τ → Prop)
    (plan : List Range) (computation : Rolling σ ε α) (other : Rolling τ ε α) : Prop :=
  ∀ rest state state', related (plan ++ rest) state state' →
    EndAlike (related rest) stopped (computation.runFrom state) (other.runFrom state')

theorem inStep_pure (a : α) : InStep related stopped [] (pure a) (pure a) :=
  fun _ _ _ h => .ok h

theorem inStep_ofExcept (hstop : ∀ plan cause state state', related plan state state' →
      stopped (.evaluation cause) state state') {outcome : Except OwnFault α}
    (hfault : ∀ fault, outcome = .error fault → ∃ cause, fault = .evaluation cause) :
    InStep related stopped [] (ofExcept outcome) (ofExcept outcome) := by
  intro rest state state' h
  rw [runFrom_ofExcept, runFrom_ofExcept]
  cases outcome with
  | ok a => exact .ok h
  | error fault =>
    obtain ⟨cause, rfl⟩ := hfault fault rfl
    exact .error (hstop _ cause state state' h)

-- What the first computation may give is known when the second one starts.
theorem InStep.bind {plan others : List Range} {first : Rolling σ ε α} {next : α → Rolling σ ε β}
    {first' : Rolling τ ε α} {next' : α → Rolling τ ε β} (h : InStep related stopped plan first first')
    (hnext : ∀ a state later, first.runFrom state = (.ok a, later) →
      InStep related stopped others (next a) (next' a)) :
    InStep related stopped (plan ++ others) (first >>= next) (first' >>= next') := by
  intro rest state state' hstate
  rw [List.append_assoc] at hstate
  have hfirst := h _ state state' hstate
  rw [runFrom_bind, runFrom_bind]
  cases hrun : first.runFrom state with
  | mk answer middle =>
    rw [hrun] at hfirst
    generalize first'.runFrom state' = run' at hfirst ⊢
    cases hfirst with
    | ok hmiddle => exact hnext _ state middle hrun rest _ _ hmiddle
    | error hstopped => exact .error hstopped

theorem InStep.map {plan : List Range} {first : Rolling σ ε α} {first' : Rolling τ ε α} {f : α → β}
    (h : InStep related stopped plan first first') :
    InStep related stopped plan (first >>= fun a => pure (f a)) (first' >>= fun a => pure (f a)) := by
  have hmap := h.bind fun a _ _ _ => inStep_pure (f a)
  rwa [List.append_nil] at hmap

end Rolling

/-! ## 2. Evaluations in step -/

theorem evaluationFault_of_combine {op : Operator} {left right : Value} {fault : OwnFault}
    (hleft : left.isList = false) (hright : right.isList = false)
    (h : combine op left right = .error fault) : ∃ cause, fault = .evaluation cause := by
  cases left with
  | list => exact nomatch hleft
  | number x =>
    cases right with
    | list => exact nomatch hright
    | number y =>
      have heq : combine op (.number x) (.number y) = (op.apply x y).mapError .evaluation := rfl
      rw [heq] at h
      cases happly : op.apply x y with
      | ok result =>
        rw [happly] at h
        exact nomatch h
      | error cause =>
        rw [happly] at h
        exact ⟨cause, (Except.error.inj h).symm⟩

section InStep

variable {source : Source σ ε} {source' : Source τ ε} {related : List Range → σ → τ → Prop}
  {stopped : Fault ε → σ → τ → Prop}
  (hdraw : ∀ lower upper, Rolling.InStep related stopped [(lower, upper)]
    (Rolling.draw source lower upper) (Rolling.draw source' lower upper))
  (hstop : ∀ plan cause state state', related plan state state' →
    stopped (.evaluation cause) state state')

theorem inStep_evaluateAll {items : List Expr}
    (h : ∀ item ∈ items,
      Rolling.InStep related stopped item.plan (evaluate source item) (evaluate source' item)) :
    Rolling.InStep related stopped (Expr.planOfAll items) (evaluateAll source items)
      (evaluateAll source' items) := by
  induction items with
  | nil => exact Rolling.inStep_pure _
  | cons item items ih =>
    obtain ⟨hitem, hitems⟩ := List.forall_mem_cons.mp h
    rw [evaluateAll, evaluateAll, Expr.planOfAll]
    apply hitem.bind
    intro outcome state later hrun
    exact (ih hitems).map

include hdraw hstop

theorem inStep_throwDice (pool : Pool) (count : Nat) (total : Int) :
    Rolling.InStep related stopped (List.replicate count (pool.leastFace, pool.greatestFace))
      (throwDice source pool count total) (throwDice source' pool count total) := by
  induction count generalizing total with
  | zero => exact Rolling.inStep_pure _
  | succ count ih =>
    rw [List.replicate_succ, ← List.singleton_append]
    apply (hdraw pool.leastFace pool.greatestFace).bind
    intro value state later hvalue
    rw [← List.nil_append (List.replicate count _)]
    have hsum : Rolling.InStep related stopped [] (Rolling.ofExcept (checkedSum total value))
        (Rolling.ofExcept (checkedSum total value)) :=
      Rolling.inStep_ofExcept hstop fun fault => evaluationFault_of_checkedSum
    apply hsum.bind
    intro sum state later hsum
    exact (ih sum).map

theorem inStep_evaluatePool (pool : Pool) :
    Rolling.InStep related stopped (Expr.dice pool).plan (evaluatePool source pool)
      (evaluatePool source' pool) :=
  (inStep_throwDice hdraw hstop pool _ 0).map

theorem inStep_evaluateSelected (selector : Selector) (amount : Int) (pool : Pool) :
    Rolling.InStep related stopped (Expr.dice pool).plan
      (evaluateSelected source selector amount pool)
      (evaluateSelected source' selector amount pool) := by
  rw [← List.append_nil (Expr.dice pool).plan]
  apply (inStep_evaluatePool hdraw hstop pool).bind
  intro thrown state later hthrown
  apply Rolling.InStep.map
  exact Rolling.inStep_ofExcept hstop fun fault => evaluationFault_of_sumFrom

/-- Two evaluations of an expression are in step along its plan as soon as single draws are. -/
theorem inStep_evaluate {e : Expr} (he : e.WellFormed) :
    Rolling.InStep related stopped e.plan (evaluate source e) (evaluate source' e) := by
  induction e with
  | constant value => exact Rolling.inStep_pure _
  | dice pool => exact inStep_evaluatePool hdraw hstop pool
  | selected selector amount pool => exact inStep_evaluateSelected hdraw hstop selector amount pool
  | binary op left right ihleft ihright =>
    obtain ⟨hleft, hright, hleftNumber, hrightNumber⟩ := he
    rw [evaluate, evaluate, Expr.plan]
    apply (ihleft hleft).bind
    intro a state later hruna
    rw [← List.append_nil right.plan]
    apply (ihright hright).bind
    intro b state' later' hrunb
    -- Both operands have come to numbers, so only the arithmetic can fail.
    have ha := Outcome.isList_value_of_follows (isDrawn_of_evaluate hleft hruna).2
    have hb := Outcome.isList_value_of_follows (isDrawn_of_evaluate hright hrunb).2
    rw [hleftNumber] at ha
    rw [hrightNumber] at hb
    apply Rolling.InStep.map
    exact Rolling.inStep_ofExcept hstop fun fault => evaluationFault_of_combine ha hb
  | repeated count body ih =>
    rw [evaluate, evaluate, times_evaluate, times_evaluate, Expr.plan_repeated]
    have hcopies : ∀ item ∈ List.replicate count.toNat body, Rolling.InStep related stopped item.plan
        (evaluate source item) (evaluate source' item) :=
      List.forall_mem_replicate.mpr (.inr (ih he.1))
    exact (inStep_evaluateAll hcopies).map
  | sequence items ih =>
    have hitems := Expr.areItems_iff.mp he.1
    rw [evaluate, evaluate, Expr.plan]
    exact (inStep_evaluateAll fun item hitem => ih item hitem (hitems item hitem).1).map

end InStep

/-! ## 3. Observed draws -/

/-- A draw as the source sees it: the range that it was asked for, and its answer. -/
structure Draw (ε : Type) where
  range : Range
  answer : Except ε Int

/-- The same source, which also keeps all draws, refused ones as well, the latest last. -/
def Source.observed (source : Source σ ε) : Source (σ × List (Draw ε)) ε where
  draw lower upper := fun (state, draws) =>
    let (answer, state) := source.draw lower upper state
    (answer, state, draws ++ [{ range := (lower, upper), answer := answer }])

theorem Source.draw_observed (source : Source σ ε) (lower upper : Int) (state : σ)
    (draws : List (Draw ε)) :
    source.observed.draw lower upper (state, draws) =
      ((source.draw lower upper state).1, (source.draw lower upper state).2,
        draws ++ [{ range := (lower, upper), answer := (source.draw lower upper state).1 }]) := rfl

/-- All draws have been answered. -/
def AllAnswered (draws : List (Draw ε)) : Prop :=
  ∀ draw ∈ draws, ∃ value, draw.answer = .ok value

/-- What an evaluation failed with is explained by its draws: its arithmetic failed behind draws
that were all answered, or the last draw was refused, and with this very fault. -/
def Explain (draws : List (Draw ε)) : Fault ε → Prop
  | .evaluation _ => AllAnswered draws
  | .source fault => ∃ answered range, AllAnswered answered ∧
      draws = answered ++ [{ range := range, answer := .error fault }]
  | _ => False

theorem allAnswered_append_singleton {draws : List (Draw ε)} (h : AllAnswered draws) (range : Range)
    (value : Int) : AllAnswered (draws ++ [{ range := range, answer := .ok value }]) := by
  intro draw hdraw
  rcases List.mem_append.mp hdraw with hdraw | hdraw
  · exact h draw hdraw
  · obtain rfl := List.mem_singleton.mp hdraw
    exact ⟨value, rfl⟩

/-- A source is in step with itself when its draws are kept: what has been asked for so far and what
is left of a plan make up the whole plan. -/
theorem inStep_draw_observed (source : Source σ ε) (whole : List Range) (lower upper : Int) :
    Rolling.InStep
      (fun plan (state : σ) (seen : σ × List (Draw ε)) => state = seen.1 ∧
        seen.2.map Draw.range ++ plan = whole ∧ AllAnswered seen.2)
      (fun fault state seen => state = seen.1 ∧ seen.2.map Draw.range <+: whole ∧
        Explain seen.2 fault)
      [(lower, upper)] (Rolling.draw source lower upper)
      (Rolling.draw source.observed lower upper) := by
  rintro rest state ⟨_, draws⟩ ⟨rfl, hwhole, hanswered⟩
  have hrange : ∀ answer, (draws ++ [Draw.mk (lower, upper) answer]).map Draw.range ++ rest =
      whole := by
    intro answer
    rw [List.map_append, List.append_assoc, ← hwhole]
    rfl
  rw [Rolling.runFrom_draw, Rolling.runFrom_draw, Source.draw_observed]
  cases source.draw lower upper state with
  | mk answer later =>
    cases answer with
    | ok value =>
      apply Rolling.EndAlike.ok
      exact ⟨rfl, hrange _, allAnswered_append_singleton hanswered _ value⟩
    | error fault =>
      apply Rolling.EndAlike.error
      exact ⟨rfl, ⟨rest, hrange _⟩, draws, _, hanswered, rfl⟩

/-- Keeping the draws changes nothing else. The ranges that were asked for are the first ones of the
plan, and all of them where the evaluation succeeds. -/
theorem ranges_of_evaluate {e : Expr} (he : e.WellFormed) {source : Source σ ε} {state later : σ}
    {draws : List (Draw ε)} {answer : Except (Fault ε) Outcome}
    (h : (evaluate source.observed e).runFrom (state, []) = (answer, later, draws)) :
    (evaluate source e).runFrom state = (answer, later) ∧ draws.map Draw.range <+: e.plan ∧
      ∀ outcome, answer = .ok outcome → draws.map Draw.range = e.plan := by
  have hstep := inStep_evaluate (inStep_draw_observed source e.plan)
    (fun plan cause state seen h => ⟨h.1, ⟨plan, h.2.1⟩, h.2.2⟩) he [] state (state, [])
    ⟨rfl, List.append_nil _, fun draw hdraw => (nomatch hdraw)⟩
  rw [h] at hstep
  generalize (evaluate source e).runFrom state = run at hstep ⊢
  cases hstep with
  | ok hend =>
    obtain ⟨rfl, hranges, -⟩ := hend
    rw [List.append_nil] at hranges
    exact ⟨rfl, hranges ▸ List.prefix_refl _, fun _ _ => hranges⟩
  | error hend =>
    obtain ⟨rfl, hranges, -⟩ := hend
    exact ⟨rfl, hranges, fun outcome houtcome => (nomatch houtcome)⟩

theorem answer_of_answers {source : Source σ ε} {plan : List Range} {state later : σ}
    {draws draws' : List (Draw ε)} {faces : List Int}
    (h : source.observed.answers plan (state, draws) = (.ok faces, later, draws')) :
    draws'.map Draw.answer = draws.map Draw.answer ++ faces.map .ok := by
  induction plan generalizing state draws faces with
  | nil =>
    cases h
    exact (List.append_nil _).symm
  | cons range plan ih =>
    obtain ⟨face, others, ⟨middle, draws₁⟩, rfl, hdraw, hothers⟩ :=
      Source.answers_cons_eq_ok_iff.mp h
    have hlog : draws₁ = draws ++ [{ range := range, answer := .ok face }] := by
      rw [Source.draw_observed] at hdraw
      obtain ⟨hanswer, hlater⟩ := Prod.mk.inj hdraw
      rw [← hanswer]
      exact (Prod.mk.inj hlater).2.symm
    rw [ih hothers, hlog, List.map_append, List.append_assoc]
    rfl

/-! ## 4. Transcripts -/

/-- What a source answers when it is asked for the ranges of a plan, up to its first refusal. -/
def Source.transcript (source : Source σ ε) : List Range → σ → List (Except ε Int)
  | [], _ => []
  | (lower, upper) :: rest, state =>
      match source.draw lower upper state with
      | (.error fault, _) => [.error fault]
      | (.ok value, state) => .ok value :: source.transcript rest state

/-- Sources with one transcript for a plan are in step along it. -/
theorem inStep_draw_transcript (source : Source σ ε) (source' : Source τ ε) (lower upper : Int) :
    Rolling.InStep
      (fun plan state state' => source.transcript plan state = source'.transcript plan state')
      (fun _ _ _ => True) [(lower, upper)] (Rolling.draw source lower upper)
      (Rolling.draw source' lower upper) := by
  intro rest state state' h
  rw [List.singleton_append, Source.transcript, Source.transcript] at h
  rw [Rolling.runFrom_draw, Rolling.runFrom_draw]
  cases hdraw : source.draw lower upper state with
  | mk answer later =>
    cases hdraw' : source'.draw lower upper state' with
    | mk answer' later' =>
      rw [hdraw, hdraw'] at h
      cases answer with
      | error fault =>
        cases answer' with
        | error fault' =>
          obtain rfl := Except.error.inj (List.cons.inj h).1
          exact .error trivial
        | ok value' => exact nomatch (List.cons.inj h).1
      | ok value =>
        cases answer' with
        | error fault' => exact nomatch (List.cons.inj h).1
        | ok value' =>
          obtain rfl := Except.ok.inj (List.cons.inj h).1
          exact .ok (List.cons.inj h).2

/-- An evaluation that succeeds has asked for exactly the ranges of the plan, and the answers are
the faces of its dice; one that fails has asked for the first ones of them, and for none behind the
draw that was refused. Sources that answer the plan alike lead to the same outcome or the same
fault. -/
theorem evaluate_keeps_plan {e : Expr} (he : e.IsBuilt) :
    (∀ (source : Source σ ε) (state : σ), ∃ draws,
      (evaluate source.observed e).runFrom (state, []) =
          (((evaluate source e).runFrom state).1, ((evaluate source e).runFrom state).2, draws) ∧
        (∀ outcome, ((evaluate source e).runFrom state).1 = .ok outcome →
          draws.map Draw.range = e.plan ∧ draws.map Draw.answer = outcome.faces.map .ok) ∧
        (∀ fault, ((evaluate source e).runFrom state).1 = .error fault →
          draws.map Draw.range <+: e.plan ∧ Explain draws fault)) ∧
      ∀ (source : Source σ ε) (source' : Source τ ε) (state : σ) (state' : τ),
        source.transcript e.plan state = source'.transcript e.plan state' →
          ((evaluate source e).runFrom state).1 = ((evaluate source' e).runFrom state').1 := by
  have hfit := Expr.wellFormed_of_isBuilt he
  constructor
  · intro source state
    have hstep := inStep_evaluate (inStep_draw_observed source e.plan)
      (fun plan cause state seen h => ⟨h.1, ⟨plan, h.2.1⟩, h.2.2⟩) hfit [] state (state, [])
      ⟨rfl, List.append_nil _, fun draw hdraw => (nomatch hdraw)⟩
    generalize (evaluate source e).runFrom state = run at hstep ⊢
    cases hobserved : (evaluate source.observed e).runFrom (state, []) with
    | mk answer seen =>
      rw [hobserved] at hstep
      cases hstep with
      | @ok outcome later _ hend =>
        obtain ⟨rfl, hranges, -⟩ := hend
        rw [List.append_nil] at hranges
        have hanswers := answer_of_answers (isDrawn_of_evaluate hfit hobserved).1
        refine ⟨seen.2, rfl, fun other hother => ?_, fun fault hfault => (nomatch hfault)⟩
        obtain rfl := Except.ok.inj hother
        exact ⟨hranges, hanswers⟩
      | @error fault later _ hend =>
        obtain ⟨rfl, hranges, hexplain⟩ := hend
        refine ⟨seen.2, rfl, fun outcome houtcome => (nomatch houtcome), fun other hother => ?_⟩
        obtain rfl := Except.error.inj hother
        exact ⟨hranges, hexplain⟩
  · intro source source' state state' h
    have hstep := inStep_evaluate (inStep_draw_transcript source source') (fun _ _ _ _ _ => trivial)
      hfit [] state state' (by rwa [List.append_nil])
    exact hstep.fst_eq

-- Three draws: two for the selection, and one for the die behind it.
def difference : Expr :=
  .binary .sub (.selected .keepHighest 1 { count := 2, sides := 6 })
    (.dice { count := 1, sides := 4 })

/-- A source that ends before the last draw, and two sources that go on differently behind it. -/
theorem keeps_plan_difference :
    difference.IsBuilt ∧
      ((evaluate Source.scripted difference).runFrom [2, 5]).1 = .error (.source .exhausted) ∧
      (∃ draws later, (evaluate Source.scripted.observed difference).runFrom ([2, 5], []) =
          (.error (.source .exhausted), later, draws) ∧
        draws.map Draw.range <+: difference.plan ∧ Explain draws (.source .exhausted)) ∧
      Source.scripted.transcript difference.plan [2, 5, 3, 9] =
        Source.cyclic.transcript difference.plan { all := [2, 5, 3] } ∧
      ((evaluate Source.scripted difference).runFrom [2, 5, 3, 9]).1 =
        ((evaluate Source.cyclic difference).runFrom { all := [2, 5, 3] }).1 := by
  have hbuilt : difference.IsBuilt := Expr.isBuilt_of_wellFormed (by decide)
  have hfault : ((evaluate Source.scripted difference).runFrom [2, 5]).1 =
      .error (.source .exhausted) := by
    cbv
  obtain ⟨hobserved, hagree⟩ := @evaluate_keeps_plan (List Int) Source.Cycle SourceFault difference hbuilt
  obtain ⟨draws, hrun, -, hfails⟩ := hobserved Source.scripted [2, 5]
  rw [hfault] at hrun
  exact ⟨hbuilt, hfault, ⟨draws, _, hrun, hfails _ hfault⟩, rfl,
    hagree Source.scripted Source.cyclic [2, 5, 3, 9] { all := [2, 5, 3] } rfl⟩

end DiceFormula
