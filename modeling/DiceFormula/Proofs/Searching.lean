import DiceFormula.Resume
import DiceFormula.Source.Seeded
import Mathlib.Data.Fintype.BigOperators
import Mathlib.Data.Fintype.Pigeonhole
import Mathlib.Data.Nat.Find

/-!
# Searching for a word

A search takes the words of its generator one after another until one is not rejected. It finds the
first such word if there is one, however far behind: a generator has finitely many states, so that
its words come again, and what is not among the first of them never comes.
-/

namespace DiceFormula.Uniform

/-! ## 1. The first accepted word -/

/-- So many words of a generator are rejected, and the next one is not. -/
structure AcceptedAfter (size : Nat) (generator : Twister) (rejections : Nat) : Prop where
  rejected : ∀ i < rejections, ¬ accepts size (answerAt Twister.next i generator) = true
  accepted : accepts size (answerAt Twister.next rejections generator) = true

variable {size : Nat} {generator : Twister}

theorem AcceptedAfter.tail {rejections : Nat}
    (h : AcceptedAfter size generator (rejections + 1)) :
    AcceptedAfter size generator.next.2 rejections where
  rejected i hi := h.rejected (i + 1) (by omega)
  accepted := h.accepted

theorem AcceptedAfter.cons {rejections : Nat}
    (hfirst : ¬ accepts size generator.next.1 = true)
    (h : AcceptedAfter size generator.next.2 rejections) :
    AcceptedAfter size generator (rejections + 1) where
  rejected i hi := by
    cases i with
    | zero => exact hfirst
    | succ i => exact h.rejected i (by omega)
  accepted := h.accepted

theorem exists_acceptedAfter {i : Nat}
    (h : accepts size (answerAt Twister.next i generator) = true) :
    ∃ rejections, AcceptedAfter size generator rejections := by
  have hex : ∃ i, accepts size (answerAt Twister.next i generator) = true := ⟨i, h⟩
  exact ⟨Nat.find hex, fun _ hlt => Nat.find_min hex hlt, Nat.find_spec hex⟩

/-! ## 2. Among so many words -/

/-- By induction on the rejections: each of them is one more step of the search. -/
theorem acceptedAmong_of_acceptedAfter {words rejections : Nat}
    (h : AcceptedAfter size generator rejections) (hlt : rejections < words) :
    acceptedAmong size words generator =
      some (answerAt Twister.next rejections generator,
        leftAfter Twister.next (rejections + 1) generator) := by
  induction rejections generalizing generator words with
  | zero =>
    obtain ⟨words, rfl⟩ := Nat.exists_eq_add_of_lt hlt
    rw [Nat.zero_add, acceptedAmong]
    exact if_pos h.accepted
  | succ rejections ih =>
    obtain ⟨words, rfl⟩ : ∃ fewer, words = fewer + 1 := ⟨words - 1, by omega⟩
    rw [acceptedAmong]
    exact (if_neg (h.rejected 0 (Nat.succ_pos _))).trans (ih h.tail (by omega))

theorem exists_of_acceptedAmong {words : Nat} {found : UInt64 × Twister}
    (h : acceptedAmong size words generator = some found) :
    ∃ rejections, AcceptedAfter size generator rejections ∧
      found = (answerAt Twister.next rejections generator,
        leftAfter Twister.next (rejections + 1) generator) := by
  induction words generalizing generator with
  | zero => exact nomatch h
  | succ words ih =>
    rw [acceptedAmong] at h
    dsimp only at h
    split at h
    next hfirst =>
      refine ⟨0, ⟨fun i hi => absurd hi (Nat.not_lt_zero i), hfirst⟩, ?_⟩
      exact (Option.some.inj h).symm
    next hfirst =>
      obtain ⟨rejections, hrest, hfound⟩ := ih h
      exact ⟨rejections + 1, hrest.cons hfirst, hfound⟩

/-! ## 3. Among all words -/

/-- The words of a window and the place of the oldest one. -/
def code (state : Twister) : Fin 312 × (Fin 312 → Fin UInt64.size) :=
  (state.oldest, fun place => (state.words.get place).toFin)

theorem code_injective : Function.Injective code := by
  rintro ⟨words, oldest⟩ ⟨words', oldest'⟩ h
  obtain ⟨rfl, hwords⟩ := Prod.mk.inj h
  congr 1
  refine Vector.ext fun place hplace => ?_
  exact UInt64.toFin_inj.mp (congrFun hwords ⟨place, hplace⟩)

theorem card_windows (size : Nat) :
    Fintype.card (Fin size × (Fin size → Fin UInt64.size)) = Twister.stateCount size := by
  rw [Fintype.card_prod, Fintype.card_fun, Fintype.card_fin, Fintype.card_fin, Twister.stateCount,
    Nat.pow_eq]

/-- There are more numbers of steps than states, so some state comes twice. -/
theorem exists_same_state (generator : Twister) :
    ∃ i j, i < j ∧ j ≤ Twister.stateCount 312 ∧
      leftAfter Twister.next i generator = leftAfter Twister.next j generator := by
  have hmore : Fintype.card (Fin 312 × (Fin 312 → Fin UInt64.size)) <
      Fintype.card (Fin (Twister.stateCount 312 + 1)) := by
    rw [card_windows, Fintype.card_fin]
    exact Nat.lt_add_one _
  obtain ⟨i, j, hne, hcode⟩ := Fintype.exists_ne_map_eq_of_card_lt
    (fun i : Fin (Twister.stateCount 312 + 1) => code (leftAfter Twister.next i generator)) hmore
  have hsame := code_injective hcode
  rcases Nat.lt_or_gt_of_ne (Fin.val_ne_of_ne hne) with hlt | hgt
  · exact ⟨i, j, hlt, Nat.le_of_lt_succ j.isLt, hsame⟩
  · exact ⟨j, i, hgt, Nat.le_of_lt_succ i.isLt, hsame.symm⟩

/-- A first accepted word stands in front of all repetitions. -/
theorem AcceptedAfter.lt_stateCount {rejections : Nat}
    (h : AcceptedAfter size generator rejections) : rejections < Twister.stateCount 312 := by
  by_contra hle
  obtain ⟨i, j, hlt, hj, hsame⟩ := exists_same_state generator
  have hsplit : rejections = j + (rejections - j) := by omega
  have hagain : answerAt Twister.next (i + (rejections - j)) generator =
      answerAt Twister.next rejections generator := by
    rw [answerAt, leftAfter_add, hsame, ← leftAfter_add, ← hsplit, answerAt]
  exact h.rejected (i + (rejections - j)) (by omega) (hagain ▸ h.accepted)

theorem nextAccepted_of_acceptedAfter {rejections : Nat}
    (h : AcceptedAfter size generator rejections) :
    nextAccepted size generator =
      some (answerAt Twister.next rejections generator,
        leftAfter Twister.next (rejections + 1) generator) :=
  acceptedAmong_of_acceptedAfter h h.lt_stateCount

theorem nextAccepted_eq_some_iff {word : UInt64} {later : Twister} :
    nextAccepted size generator = some (word, later) ↔
      ∃ rejections, AcceptedAfter size generator rejections ∧
        word = answerAt Twister.next rejections generator ∧
        later = leftAfter Twister.next (rejections + 1) generator := by
  constructor
  · intro h
    obtain ⟨rejections, haccepted, hfound⟩ := exists_of_acceptedAmong h
    exact ⟨rejections, haccepted, Prod.mk.inj hfound⟩
  · rintro ⟨rejections, haccepted, rfl, rfl⟩
    exact nextAccepted_of_acceptedAfter haccepted

/-- A search has no end exactly if all words are rejected. -/
theorem nextAccepted_eq_none_iff :
    nextAccepted size generator = none ↔
      ∀ i, ¬ accepts size (answerAt Twister.next i generator) = true := by
  constructor
  · intro h i haccepted
    obtain ⟨rejections, hfirst⟩ := exists_acceptedAfter haccepted
    rw [nextAccepted_of_acceptedAfter hfirst] at h
    exact nomatch h
  · intro h
    cases hsearch : nextAccepted size generator with
    | none => rfl
    | some found =>
      obtain ⟨rejections, hfirst, -⟩ := exists_of_acceptedAmong hsearch
      exact absurd hfirst.accepted (h rejections)

end DiceFormula.Uniform
