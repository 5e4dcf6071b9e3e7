import DiceFormula.Formula
import DiceFormula.Proofs.Draws
import DiceFormula.Proofs.Exactness
import DiceFormula.Proofs.Meaning
import DiceFormula.Proofs.Mirrors
import DiceFormula.Proofs.Report

/-!
# The faults that can arise

Rolling a text fails with a complaint about the text, with a reason why it has no meaning, or with a
fault of the arithmetic, and with nothing else as long as the source does its part: a source is
never asked for an empty range, operands are always numbers, and every outcome can be reported.
-/

namespace DiceFormula

/-! ## 1. Ranges -/

/-- Both ends of a range are words, and there is a number between them. -/
def Range.IsProper (range : Range) : Prop :=
  Word.Fits range.1 ∧ Word.Fits range.2 ∧ range.1 ≤ range.2

theorem isProper_of_pool {pool : Pool} (hpool : pool.WellFormed) :
    Range.IsProper (pool.leastFace, pool.greatestFace) := by
  have hsides := hpool.sides_fits
  refine ⟨?_, ?_, Expr.leastFace_le_greatestFace hpool⟩
  · dsimp only [Pool.leastFace]
    split <;> decide
  · dsimp only [Pool.greatestFace]
    split
    · exact hsides
    · decide

/-- Dice have a face at least, so nobody is asked for a number of an empty range. -/
theorem isProper_of_mem_plan {e : Expr} (he : e.WellFormed) :
    ∀ range ∈ e.plan, Range.IsProper range := by
  have hpool (pool : Pool) (hpool : pool.WellFormed) :
      ∀ range ∈ (Expr.dice pool).plan, Range.IsProper range := by
    intro range hrange
    obtain rfl := List.eq_of_mem_replicate hrange
    exact isProper_of_pool hpool
  induction e with
  | constant value => exact fun _ hmem => nomatch hmem
  | dice pool => exact hpool pool he
  | selected selector amount pool => exact hpool pool he.1
  | binary op left right ihleft ihright =>
    exact List.forall_mem_append.mpr ⟨ihleft he.1, ihright he.2.1⟩
  | repeated count body ih =>
    rw [Expr.plan_repeated, Expr.planOfAll_eq_flatMap, List.forall_mem_flatMap]
    exact List.forall_mem_replicate.mpr (.inr (ih he.1))
  | sequence items ih =>
    have hitems := Expr.areItems_iff.mp he.1
    rw [Expr.plan, Expr.planOfAll_eq_flatMap, List.forall_mem_flatMap]
    exact fun item hitem => ih item hitem (hitems item hitem).1

/-! ## 2. Outcomes that can be read -/

/-- An outcome has a report, and every number among its nodes has a trace. -/
structure Outcome.Readable (outcome : Outcome) : Prop where
  report : ∃ text, outcome.report = .ok text
  trace : ∀ path node, outcome.at? path = some node → node.expr.yieldsList = false →
    ∃ text, node.trace = .ok text

theorem readable_of_follows {e : Expr} (he : e.WellFormed) {outcome : Outcome}
    (h : outcome.Follows e) : outcome.Readable where
  report := Outcome.exists_reportAt h 0
  trace path node hnode hnumber := by
    have hmirrors := Outcome.at?_of_follows he h path
    rw [hnode] at hmirrors
    generalize e.at? path = part at hmirrors
    cases hmirrors with
    | some hnode =>
      -- A node yields a list exactly if its expression says so.
      have hvalue := hnode.isList_value
      rw [← hnode.expr_eq, hnumber] at hvalue
      obtain ⟨tail, -, -, htrace⟩ := Outcome.trace_eq hvalue
      exact ⟨_, htrace⟩

/-! ## 3. Rolling -/

/-- How rolling a text ends, and the draws that are made for it. -/
inductive RollEnds {ε : Type} (text : Bytes) : Except (Fault ε) Outcome → List (Draw ε) → Prop where
  | unreadable {fault : ReadingFault} : readPhrase text = .error fault →
      RollEnds text (.error (.reading fault)) []
  | meaningless {phrase : Phrase} {fault : MeaningFault} : readPhrase text = .ok phrase →
      Expr.ofPhrase phrase = .error fault → RollEnds text (.error (.meaning fault)) []
  | failed {e : Expr} {fault : EvaluationFault} {draws : List (Draw ε)} : compile text = .ok e →
      RollEnds text (.error (.evaluation fault)) draws
  | finished {e : Expr} {outcome : Outcome} {draws : List (Draw ε)} : compile text = .ok e →
      outcome.Follows e → outcome.Readable → RollEnds text (.ok outcome) draws

theorem rollEnds_of_compile_error {ε : Type} {text : Bytes} {fault : OwnFault}
    (h : compile text = .error fault) :
    RollEnds text (.error (Fault.ofOwn fault : Fault ε)) [] := by
  unfold compile at h
  cases hread : readPhrase text with
  | error complaint =>
    rw [hread] at h
    obtain rfl := Except.error.inj h
    exact .unreadable hread
  | ok phrase =>
    rw [hread] at h
    have hphrase : (Expr.ofPhrase phrase).mapError Fault.meaning = .error fault := h
    cases hmeaning : Expr.ofPhrase phrase with
    | error reason =>
      rw [hmeaning] at hphrase
      obtain rfl := Except.error.inj hphrase
      exact .meaningless hread hmeaning
    | ok e =>
      rw [hmeaning] at hphrase
      exact nomatch hphrase

/-- The arithmetic is the only thing in an evaluation that can fail for a source that does its
part. -/
theorem rollEnds_of_evaluate {σ ε : Type} {source : Source σ ε} (hsource : source.AnswersInRange)
    {text : Bytes} {e : Expr} (hcompile : compile text = .ok e) {state later : σ}
    {answer : Except (Fault ε) Outcome} (h : (evaluate source e).runFrom state = (answer, later))
    (draws : List (Draw ε)) : RollEnds text answer draws := by
  have he := Expr.wellFormed_of_isBuilt (Expr.isBuilt_of_compile hcompile)
  obtain ⟨faces, last, -, ⟨outcome, hrun, -⟩ | ⟨⟨cause, middle, hrun⟩, -⟩⟩ :=
    Expr.settles hsource he state
  · obtain ⟨rfl, rfl⟩ := Prod.mk.inj (h.symm.trans hrun)
    have hfollows := (isDrawn_of_evaluate he hrun).2
    exact .finished hcompile hfollows (readable_of_follows he hfollows)
  · obtain ⟨rfl, rfl⟩ := Prod.mk.inj (h.symm.trans hrun)
    exact .failed hcompile

theorem runFrom_roll {σ ε : Type} (source : Source σ ε) (text : Bytes) (state : σ) :
    (roll source text).runFrom state =
      match compile text with
      | .error fault => (.error fault, state)
      | .ok e => (evaluate source e).runFrom state := by
  rw [roll, Rolling.runFrom_bind, Rolling.runFrom_ofExcept]
  cases compile text <;> rfl

/-- Rolling a text with a source that answers inside every range that is not empty ends in one of
four ways. It fails with a fault of reading or of meaning before the first draw, or with a fault of
the arithmetic, or gives an outcome that can be reported and traced. Every range that the source is
asked for on the way has a number in it. -/
theorem roll_ends {σ ε : Type} {source : Source σ ε} (hsource : source.IsFair) (text : Bytes)
    (state : σ) :
    ∃ answer later draws, (roll source.observed text).runFrom (state, []) = (answer, later, draws) ∧
      (roll source text).runFrom state = (answer, later) ∧
      (∀ draw ∈ draws, draw.range.1 ≤ draw.range.2) ∧ RollEnds text answer draws := by
  rw [runFrom_roll, runFrom_roll]
  cases hcompile : compile text with
  | error fault =>
    exact ⟨.error fault, state, [], rfl, rfl, fun draw hdraw => (nomatch hdraw),
      rollEnds_of_compile_error hcompile⟩
  | ok e =>
    have he := Expr.wellFormed_of_isBuilt (Expr.isBuilt_of_compile hcompile)
    cases hobserved : (evaluate source.observed e).runFrom (state, []) with
    | mk answer seen =>
      obtain ⟨later, draws⟩ := seen
      obtain ⟨hrun, hranges, -⟩ := ranges_of_evaluate he hobserved
      refine ⟨answer, later, draws, hobserved, hrun, fun draw hdraw => ?_,
        rollEnds_of_evaluate hsource.answersInRange hcompile hrun draws⟩
      exact (isProper_of_mem_plan he _ (hranges.subset (List.mem_map_of_mem hdraw))).2.2

/-- Answers with the least number of every range that has one. -/
def Source.cautious : Source Unit where
  draw lower upper state := (if lower ≤ upper then .ok lower else .error .emptyRange, state)

/-- A one is thrown, and then there is nothing to divide by. -/
theorem roll_ends_division :
    Source.cautious.IsFair ∧ ∃ draws,
      (roll Source.cautious.observed (bytes "1 / (d6 - 1)")).runFrom ((), []) =
          (.error (.evaluation .divisionByZero), (), draws) ∧
        (∀ draw ∈ draws, draw.range.1 ≤ draw.range.2) ∧
        RollEnds (bytes "1 / (d6 - 1)") (.error (.evaluation .divisionByZero)) draws := by
  have hfair : Source.cautious.IsFair := by
    refine ⟨fun lower upper state h => ⟨lower, state, ?_, Int.le_refl lower, h⟩,
      fun lower upper state h => ⟨.emptyRange, state, ?_⟩⟩
    · exact congrArg (·, state) (if_pos h)
    · exact congrArg (·, state) (if_neg (by omega))
  have hrun : (roll Source.cautious (bytes "1 / (d6 - 1)")).runFrom () =
      (.error (.evaluation .divisionByZero), ()) := by cbv
  obtain ⟨answer, later, draws, hobserved, hplain, hranges, hends⟩ :=
    roll_ends hfair (bytes "1 / (d6 - 1)") ()
  obtain ⟨rfl, rfl⟩ := Prod.mk.inj (hrun.symm.trans hplain)
  exact ⟨hfair, draws, hobserved, hranges, hends⟩

end DiceFormula
