import DiceFormula.Proofs.Faults
import DiceFormula.Proofs.Uniform

/-!
# Rolls with a generator

A generator answers every range that dice ask for, unless one of its searches has no end. All
searches of a roll go through the words of one generator, so that an endless one is endless in the
words of the generator that was there at first.
-/

namespace DiceFormula

/-! ## 1. States of one generator -/

/-- A generator becomes another one when so many of its words have been taken. -/
def Twister.LeadsTo (generator later : Twister) : Prop :=
  ∃ taken, later = leftAfter Twister.next taken generator

variable {generator state : Twister}

theorem Twister.leadsTo_self (generator : Twister) : generator.LeadsTo generator :=
  ⟨0, rfl⟩

theorem Twister.LeadsTo.next (h : generator.LeadsTo state) (taken : Nat) :
    generator.LeadsTo (leftAfter Twister.next taken state) := by
  obtain ⟨before, rfl⟩ := h
  exact ⟨before + taken, (leftAfter_add ..).symm⟩

/-- Words that are all rejected lie behind those that were taken before. -/
theorem Uniform.runsDry_of_rejected {lower upper : Int} (hrange : Range.IsProper (lower, upper))
    (hleads : generator.LeadsTo state)
    (h : ∀ i, number? lower upper (answerAt Twister.next i state) = none) : RunsDry generator := by
  obtain ⟨taken, rfl⟩ := hleads
  obtain ⟨hlower, hupper, hle⟩ := hrange
  refine ⟨lower, upper, taken, hlower, hupper, hle, fun i hi => ?_⟩
  obtain ⟨later, rfl⟩ := Nat.exists_eq_add_of_le hi
  rw [answerAt, leftAfter_add]
  exact h later

/-! ## 2. Rolls -/

/-- What has become of a generator in a run that goes on. -/
def Underway (generator : Twister) (plan : List Range) (state state' : Twister) : Prop :=
  state = state' ∧ generator.LeadsTo state ∧ ∀ range ∈ plan, Range.IsProper range

/-- What has become of a generator in a run that has failed, or has no end. -/
def Stopped (generator : Twister) (fault : Fault DrawFault) (state state' : Twister) : Prop :=
  state = state' ∧ generator.LeadsTo state ∧
    ((∃ cause, fault = .evaluation cause) ∨
      fault = .source .endless ∧ Uniform.RunsDry generator)

theorem inStep_draw_twister (generator : Twister) (lower upper : Int) :
    Rolling.InStep (Underway generator) (Stopped generator) [(lower, upper)]
      (Rolling.draw Source.twister lower upper) (Rolling.draw Source.twister lower upper) := by
  rintro rest state _ ⟨rfl, hleads, hplan⟩
  obtain ⟨hrange, hrest⟩ := List.forall_mem_cons.mp hplan
  have ⟨hlower, hupper, hle⟩ := hrange
  rw [Rolling.runFrom_draw]
  cases hdraw : Source.twister.draw lower upper state with
  | mk answer later =>
    cases answer with
    | ok value =>
      obtain ⟨rejections, -, rfl⟩ := (Source.draw_twister_eq_ok_iff hlower hupper hle).mp hdraw
      exact .ok ⟨rfl, hleads.next _, hrest⟩
    | error fault =>
      obtain ⟨hrejected, rfl, rfl⟩ :=
        (Source.draw_twister_eq_error_iff hlower hupper hle).mp hdraw
      exact .error ⟨rfl, hleads, .inr ⟨rfl, Uniform.runsDry_of_rejected hrange hleads hrejected⟩⟩

/-- Whatever is drawn, a roll ends in one of the four ways or not at all, and a later state of the
generator is left. -/
theorem roll_twister_ends (hleads : generator.LeadsTo state) (text : Bytes) :
    generator.LeadsTo ((roll Source.twister text).runFrom state).2 ∧
      (RollEnds text ((roll Source.twister text).runFrom state).1 [] ∨
        ((roll Source.twister text).runFrom state).1 = .error (.source .endless) ∧
          Uniform.RunsDry generator) := by
  rw [runFrom_roll]
  cases hcompile : compile text with
  | error fault => exact ⟨hleads, .inl (rollEnds_of_compile_error hcompile)⟩
  | ok e =>
    have he := Expr.wellFormed_of_isBuilt (Expr.isBuilt_of_compile hcompile)
    have hstep := inStep_evaluate (inStep_draw_twister generator)
      (fun plan cause state state' h => ⟨h.1, h.2.1, .inl ⟨cause, rfl⟩⟩) he [] state state
      ⟨rfl, hleads, by rw [List.append_nil]; exact isProper_of_mem_plan he⟩
    dsimp only
    cases hrun : (evaluate Source.twister e).runFrom state with
    | mk answer later =>
      rw [hrun] at hstep
      cases answer with
      | ok outcome =>
        cases hstep with
        | ok hend =>
          have hfollows := (isDrawn_of_evaluate he hrun).2
          exact ⟨hend.2.1, .inl (.finished hcompile hfollows (readable_of_follows he hfollows))⟩
      | error fault =>
        cases hstep with
        | error hend =>
          obtain ⟨-, hlater, ⟨cause, rfl⟩ | ⟨rfl, hdry⟩⟩ := hend
          · exact ⟨hlater, .inl (.failed hcompile)⟩
          · exact ⟨hlater, .inr ⟨rfl, hdry⟩⟩

/-! ## 3. One die -/

/-- A die shows what the first word behind the rejected ones stands for. -/
theorem evaluate_die {sides value : Int} {rejections : Nat} (hsides : Word.Fits sides)
    (h : Uniform.Found 1 sides state rejections value) (hpos : 1 ≤ sides) :
    (evaluate Source.twister (.dice { count := 1, sides := sides })).runFrom state =
      (.ok (.node (.dice { count := 1, sides := sides }) (.number value)
        [{ value := value, sides := sides }] [] []),
        leftAfter Twister.next (rejections + 1) state) := by
  have hone : Word.Fits 1 := by decide
  have hdraw := (Source.draw_twister_eq_ok_iff hone hsides hpos).mpr ⟨rejections, h, rfl⟩
  have hanswers : Source.twister.answers (Expr.dice { count := 1, sides := sides }).plan state =
      (.ok [value], leftAfter Twister.next (rejections + 1) state) :=
    Source.answers_cons_eq_ok_iff.mpr ⟨value, [], _, rfl, hdraw, rfl⟩
  have hbounds := Uniform.bounds_of_number? hone hsides hpos h.accepted
  have hvalue : Word.Fits value := ⟨hone.1.trans hbounds.1, hbounds.2.trans hsides.2⟩
  have hsum : checkedSum 0 value = .ok value :=
    (checkedSum_eq_ok_iff (by decide) hvalue).mpr ⟨Int.zero_add value, hvalue⟩
  exact evaluatePool_of_sumFrom hanswers (bind_eq_ok_iff.mpr ⟨value, hsum, rfl⟩)

end DiceFormula
