import DiceFormula.Expr.Parts
import DiceFormula.Proofs.WellFormed
import Mathlib.Data.List.Basic

/-!
# Parts of well-formed expressions

The limits hold at every part within a well-formed expression, and only the whole can be a sequence.
-/

namespace DiceFormula.Expr

variable {e part : Expr}

theorem wellFormed_of_mem_parts (h : e.WellFormed) (hpart : part ∈ e.parts) : part.WellFormed := by
  cases e with
  | constant | dice => exact nomatch hpart
  | selected selector amount pool =>
    obtain rfl := List.mem_singleton.mp hpart
    exact h.1
  | binary op left right =>
    rcases List.mem_pair.mp hpart with rfl | rfl
    · exact h.1
    · exact h.2.1
  | repeated count body =>
    obtain rfl := List.eq_of_mem_replicate hpart
    exact h.1
  | sequence items => exact (areItems_iff.mp h.1 part hpart).1

theorem isSequence_eq_false_of_yieldsList (h : e.yieldsList = false) : e.isSequence = false := by
  cases e with
  | sequence => exact nomatch h
  | _ => rfl

theorem isSequence_of_mem_parts (h : e.WellFormed) (hpart : part ∈ e.parts) :
    part.isSequence = false := by
  cases e with
  | constant | dice => exact nomatch hpart
  | selected selector amount pool =>
    obtain rfl := List.mem_singleton.mp hpart
    rfl
  | binary op left right =>
    obtain ⟨-, -, hleft, hright⟩ := h
    rcases List.mem_pair.mp hpart with rfl | rfl
    · exact isSequence_eq_false_of_yieldsList hleft
    · exact isSequence_eq_false_of_yieldsList hright
  | repeated count body =>
    obtain rfl := List.eq_of_mem_replicate hpart
    exact h.2.2.2.1
  | sequence items => exact (areItems_iff.mp h.1 part hpart).2

/-- Every part within a well-formed expression is well-formed, and it is no sequence unless it is
the whole expression. -/
theorem wellFormed_of_at? (h : e.WellFormed) {path : List Nat} (hpart : e.at? path = some part) :
    part.WellFormed ∧ (part.isSequence = true → path = []) := by
  induction path generalizing e with
  | nil =>
    obtain rfl := Option.some.inj hpart
    exact ⟨h, fun _ => rfl⟩
  | cons index path ih =>
    rw [at?_cons, Option.bind_eq_some_iff] at hpart
    obtain ⟨next, hnext, hpart⟩ := hpart
    have hmem := List.mem_of_getElem? hnext
    obtain ⟨hfit, hroot⟩ := ih (wellFormed_of_mem_parts h hmem) hpart
    refine ⟨hfit, fun hsequence => ?_⟩
    -- A sequence would be the next part itself.
    obtain rfl := hroot hsequence
    obtain rfl := Option.some.inj hpart
    rw [isSequence_of_mem_parts h hmem] at hsequence
    exact nomatch hsequence

theorem sound_of_wellFormed (h : e.WellFormed) : e.Sound := by
  cases e with
  | constant | dice => exact h
  | selected selector amount pool => exact ⟨h.2.1, h.2.2, leaves_bounds h.2.1 h.2.2⟩
  | binary op left right => exact h.2.2
  | repeated count body =>
    obtain ⟨-, hpos, hle, hsequence, hload⟩ := h
    exact ⟨hpos, hle, hsequence, hload⟩
  | sequence items =>
    obtain ⟨hitems, hlength, hload⟩ := h
    exact ⟨hlength, fun item hitem => (areItems_iff.mp hitems item hitem).2, hload⟩

end DiceFormula.Expr
