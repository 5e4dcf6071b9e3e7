import DiceFormula.Expr.Plan
import DiceFormula.Outcome.Evaluation
import Mathlib.Data.List.Forall2

/-!
# Runs of computations that draw

A run of one computation behind another is put together from two runs, and the answers to two plans
behind each other are put together in the same way.
-/

namespace DiceFormula

/-! ## 1. Runs -/

theorem bind_eq_ok_iff {ε α β : Type} {x : Except ε α} {f : α → Except ε β} {b : β} :
    (x >>= f) = .ok b ↔ ∃ a, x = .ok a ∧ f a = .ok b := by
  cases x with
  | error fault =>
    refine ⟨fun h => (nomatch h), ?_⟩
    rintro ⟨a, h, -⟩
    exact nomatch h
  | ok a =>
    refine ⟨fun h => ⟨a, rfl, h⟩, ?_⟩
    rintro ⟨_, h, hf⟩
    rwa [← Except.ok.inj h] at hf

theorem mapError_eq_ok_iff {ε δ α : Type} {x : Except ε α} {f : ε → δ} {a : α} :
    x.mapError f = .ok a ↔ x = .ok a := by
  cases x with
  | error fault => exact ⟨fun h => (nomatch h), fun h => (nomatch h)⟩
  | ok b => exact ⟨fun h => congrArg _ (Except.ok.inj h), fun h => congrArg _ (Except.ok.inj h)⟩

variable {σ ε : Type}

namespace Rolling

variable {α β : Type} {first : Rolling σ ε α} {next : α → Rolling σ ε β} {state middle later : σ}

-- A run forward is followed step by step, and a run that succeeds is taken apart.
theorem runFrom_bind_of_ok {a : α} (h : first.runFrom state = (.ok a, middle)) :
    (first >>= next).runFrom state = (next a).runFrom middle := by
  rw [runFrom_bind, h]

theorem runFrom_bind_of_error {fault : Fault ε} (h : first.runFrom state = (.error fault, middle)) :
    (first >>= next).runFrom state = (.error fault, middle) := by
  rw [runFrom_bind, h]

theorem runFrom_bind_eq_ok_iff {b : β} :
    (first >>= next).runFrom state = (.ok b, later) ↔
      ∃ a middle, first.runFrom state = (.ok a, middle) ∧ (next a).runFrom middle = (.ok b, later) := by
  rw [runFrom_bind]
  cases first.runFrom state with
  | mk answer middle =>
    cases answer with
    | error fault =>
      refine ⟨fun h => (nomatch h), ?_⟩
      rintro ⟨a, middle, h, -⟩
      exact nomatch h
    | ok a =>
      refine ⟨fun h => ⟨a, middle, rfl, h⟩, ?_⟩
      rintro ⟨_, _, h, hnext⟩
      cases h
      exact hnext

theorem runFrom_pure_eq_ok_iff {a b : α} :
    (pure a : Rolling σ ε α).runFrom state = (.ok b, later) ↔ a = b ∧ state = later := by
  rw [runFrom_pure, Prod.mk.injEq, Except.ok.injEq]

theorem runFrom_ofExcept_eq_ok_iff {outcome : Except OwnFault α} {b : α} :
    (ofExcept outcome : Rolling σ ε α).runFrom state = (.ok b, later) ↔
      outcome = .ok b ∧ state = later := by
  rw [runFrom_ofExcept, Prod.mk.injEq, mapError_eq_ok_iff]

theorem runFrom_draw_eq_ok_iff {source : Source σ ε} {lower upper value : Int} :
    (draw source lower upper).runFrom state = (.ok value, later) ↔
      source.draw lower upper state = (.ok value, later) := by
  rw [runFrom_draw, Prod.mk.injEq, mapError_eq_ok_iff, Prod.ext_iff]

variable {τ : Type} {related : σ → τ → Prop}

/-- Two computations give the same outcome from related states, and leave related states behind. -/
def Agrees (related : σ → τ → Prop) (computation : Rolling σ ε α) (other : Rolling τ ε α) : Prop :=
  ∀ state state', related state state' →
    (computation.runFrom state).1 = (other.runFrom state').1 ∧
      related (computation.runFrom state).2 (other.runFrom state').2

theorem agrees_pure (a : α) : Agrees related (pure a : Rolling σ ε α) (pure a) :=
  fun _ _ h => ⟨rfl, h⟩

theorem agrees_ofExcept (outcome : Except OwnFault α) :
    Agrees related (ofExcept outcome : Rolling σ ε α) (ofExcept outcome) := by
  intro state state' h
  rw [runFrom_ofExcept, runFrom_ofExcept]
  exact ⟨rfl, h⟩

-- Where the first computations agree, the second ones start from related states.
theorem Agrees.bind {other : Rolling τ ε α} {next' : α → Rolling τ ε β} (h : Agrees related first other)
    (hnext : ∀ a, Agrees related (next a) (next' a)) :
    Agrees related (first >>= next) (other >>= next') := by
  intro state state' hstate
  have hfirst := h state state' hstate
  rw [runFrom_bind, runFrom_bind]
  cases hrun : first.runFrom state with
  | mk answer middle =>
    cases hrun' : other.runFrom state' with
    | mk answer' middle' =>
      rw [hrun, hrun'] at hfirst
      obtain ⟨rfl, hmiddle⟩ := hfirst
      cases answer with
      | error fault => exact ⟨rfl, hmiddle⟩
      | ok a => exact hnext a middle middle' hmiddle

end Rolling

/-! ## 2. Answers to plans -/

namespace Source

variable {source : Source σ ε} {state later : σ}

theorem answers_cons_eq_ok_iff {range : Range} {plan : List Range} {faces : List Int} :
    source.answers (range :: plan) state = (.ok faces, later) ↔
      ∃ face others middle, faces = face :: others ∧
        source.draw range.1 range.2 state = (.ok face, middle) ∧
        source.answers plan middle = (.ok others, later) := by
  obtain ⟨lower, upper⟩ := range
  rw [answers]
  cases source.draw lower upper state with
  | mk answer middle =>
    cases answer with
    | error fault =>
      refine ⟨fun h => (nomatch h), ?_⟩
      rintro ⟨_, _, _, -, h, -⟩
      exact nomatch h
    | ok face =>
      dsimp only
      cases hrest : source.answers plan middle with
      | mk outcome last =>
        cases outcome with
        | error fault =>
          refine ⟨fun h => (nomatch h), ?_⟩
          rintro ⟨_, _, _, -, h, hothers⟩
          cases h
          rw [hrest] at hothers
          exact nomatch hothers
        | ok others =>
          constructor
          · intro h
            cases h
            exact ⟨face, others, middle, rfl, rfl, hrest⟩
          · rintro ⟨_, _, _, rfl, h, hothers⟩
            cases h
            rw [hrest] at hothers
            cases hothers
            rfl

-- The answers to the first plan are taken off the front one by one.
theorem answers_append_eq_ok_iff {plan others : List Range} {faces : List Int} :
    source.answers (plan ++ others) state = (.ok faces, later) ↔
      ∃ front back middle, faces = front ++ back ∧
        source.answers plan state = (.ok front, middle) ∧
        source.answers others middle = (.ok back, later) := by
  induction plan generalizing state faces with
  | nil =>
    constructor
    · intro h
      exact ⟨[], faces, state, rfl, rfl, h⟩
    · rintro ⟨_, _, _, rfl, h, hothers⟩
      cases h
      exact hothers
  | cons range plan ih =>
    simp only [List.cons_append, answers_cons_eq_ok_iff, ih]
    constructor
    · rintro ⟨face, _, middle, rfl, hdraw, front, back, last, rfl, hfront, hback⟩
      exact ⟨face :: front, back, last, rfl, ⟨face, front, middle, rfl, hdraw, hfront⟩, hback⟩
    · rintro ⟨_, back, last, rfl, ⟨face, front, middle, rfl, hdraw, hfront⟩, hback⟩
      exact ⟨face, front ++ back, middle, rfl, hdraw, front, back, last, rfl, hfront, hback⟩

theorem length_of_answers {plan : List Range} {faces : List Int}
    (h : source.answers plan state = (.ok faces, later)) : faces.length = plan.length := by
  induction plan generalizing state faces with
  | nil =>
    cases h
    rfl
  | cons range plan ih =>
    obtain ⟨face, others, middle, rfl, -, hothers⟩ := answers_cons_eq_ok_iff.mp h
    rw [List.length_cons, List.length_cons, ih hothers]

end Source

end DiceFormula
