import DiceFormula.CommandLine.Pieces
import Mathlib.Tactic.Tauto

/-!
# Arguments are read in pieces

Every list of arguments is written by proper pieces, and reading the arguments collects what the
pieces stand for. A flag between two pieces changes nothing but that everything is reported.
-/

namespace DiceFormula.CommandLine

/-- The options, with a seed for the case that no other follows. -/
def Options.seeded (seed : UInt64) (options : Options) : Options :=
  { options with seed := options.seed <|> some seed }

/-- The options, with a word in front of the others. -/
def Options.saying (word : Bytes) (options : Options) : Options :=
  { options with words := word :: options.words }

/-! ## 1. One piece -/

theorem readSeed_eq (value : Bytes) :
    readSeed value = if IsSeed value then .ok (seedOf value) else .error (.badSeed value) := by
  have hnumeral : (value.isEmpty || !value.all isDigit) = true ↔
      ¬ (value ≠ [] ∧ ∀ b ∈ value, isDigit b = true) := by
    rw [Bool.or_eq_true, List.isEmpty_iff, Bool.not_eq_true', ← Bool.not_eq_true, List.all_eq_true]
    tauto
  unfold readSeed
  by_cases h : IsSeed value
  · obtain ⟨hne, hdigits, hsmall⟩ := id h
    rw [if_pos h, if_neg (fun hbad => hnumeral.mp hbad ⟨hne, hdigits⟩), if_neg (by omega)]
    rfl
  · rw [if_neg h]
    split
    next => rfl
    next hgood =>
      rw [hnumeral, not_not] at hgood
      have hlarge : ¬ Decimal.valueOf value < UInt64.size := fun hsmall => h ⟨hgood.1, hgood.2, hsmall⟩
      rw [if_pos (by omega)]

theorem readOptions_flag {flag : Bytes} (h : IsFlag flag) (rest : List Bytes) :
    readOptions (flag :: rest) = (readOptions rest).map Options.loud := by
  have hflag : flag = bytes "-v" ∨ flag = bytes "--verbose" := h
  rw [readOptions.eq_def]
  dsimp only
  rw [if_pos hflag]
  cases readOptions rest <;> rfl

theorem readOptions_seed (value : Bytes) (rest : List Bytes) :
    readOptions (bytes "--seed" :: value :: rest) =
      if IsSeed value then (readOptions rest).map (Options.seeded (seedOf value))
      else .error (.badSeed value) := by
  have hflag : ¬ (bytes "--seed" = bytes "-v" ∨ bytes "--seed" = bytes "--verbose") := by decide
  rw [readOptions, if_neg hflag, if_pos rfl, readSeed_eq]
  split
  · cases readOptions rest <;> rfl
  · rfl

theorem readOptions_word {word : Bytes} (h : ¬ IsFlag word) (hseed : word ≠ bytes "--seed")
    (rest : List Bytes) :
    readOptions (word :: rest) = (readOptions rest).map (Options.saying word) := by
  have hflag : ¬ (word = bytes "-v" ∨ word = bytes "--verbose") := h
  rw [readOptions.eq_def]
  dsimp only
  rw [if_neg hflag, if_neg hseed]
  cases readOptions rest <;> rfl

-- What a further piece adds, where all values of the other pieces are seeds.
theorem collect_flag (spelling : Bytes) (pieces : List Piece) (waiting : Bool) :
    collect (.flag spelling :: pieces) waiting = (collect pieces waiting).map Options.loud := by
  unfold collect
  simp only [List.filterMap_cons, Piece.value?, Piece.word?, List.any_cons, Piece.isFlag, Bool.true_or]
  cases (pieces.filterMap Piece.value?).find? fun value => ¬ IsSeed value with
  | some value => rfl
  | none => cases waiting <;> rfl

theorem collect_word (word : Bytes) (pieces : List Piece) (waiting : Bool) :
    collect (.word word :: pieces) waiting = (collect pieces waiting).map (Options.saying word) := by
  unfold collect
  simp only [List.filterMap_cons, Piece.value?, Piece.word?, List.any_cons, Piece.isFlag,
    Bool.false_or]
  cases (pieces.filterMap Piece.value?).find? fun value => ¬ IsSeed value with
  | some value => rfl
  | none => cases waiting <;> rfl

theorem collect_seed (value : Bytes) (pieces : List Piece) (waiting : Bool) :
    collect (.seed value :: pieces) waiting =
      if IsSeed value then (collect pieces waiting).map (Options.seeded (seedOf value))
      else .error (.badSeed value) := by
  unfold collect
  simp only [List.filterMap_cons, Piece.value?, Piece.word?, List.any_cons, Piece.isFlag,
    Bool.false_or, List.find?_cons, List.map_cons]
  by_cases h : IsSeed value
  · rw [if_pos h]
    simp only [h, not_true_eq_false, decide_false]
    cases (pieces.filterMap Piece.value?).find? fun value => ¬ IsSeed value with
    | some value => rfl
    | none =>
      cases waiting with
      | true => rfl
      | false =>
        -- The last seed of the others comes in front, and there may be none.
        rw [List.getLast?_cons]
        simp only [Bool.false_eq_true, if_false, Except.map, Options.seeded]
        cases ((pieces.filterMap Piece.value?).map seedOf).getLast? <;> rfl
  · rw [if_neg h]
    simp only [h, not_false_eq_true, decide_true]

/-! ## 2. All pieces -/

theorem written_cons (piece : Piece) (pieces : List Piece) (waiting : Bool) :
    written (piece :: pieces) waiting = piece.arguments ++ written pieces waiting := by
  rw [written, written, List.flatMap_cons, List.append_assoc]

/-- Reading the arguments of proper pieces collects what the pieces stand for. -/
theorem readOptions_written {pieces : List Piece} (h : ∀ piece ∈ pieces, piece.IsProper)
    (waiting : Bool) : readOptions (written pieces waiting) = collect pieces waiting := by
  induction pieces with
  | nil => cases waiting <;> rfl
  | cons piece pieces ih =>
    obtain ⟨hpiece, hpieces⟩ := List.forall_mem_cons.mp h
    rw [written_cons]
    cases piece with
    | flag spelling =>
      rw [collect_flag, ← ih hpieces]
      exact readOptions_flag hpiece _
    | seed value =>
      rw [collect_seed, ← ih hpieces]
      exact readOptions_seed value _
    | word text =>
      rw [collect_word, ← ih hpieces]
      exact readOptions_word hpiece.1 hpiece.2 _

/-- Every list of arguments is written by proper pieces. -/
theorem exists_written : ∀ arguments : List Bytes, ∃ pieces waiting,
    (∀ piece ∈ pieces, Piece.IsProper piece) ∧ arguments = written pieces waiting
  | [] => ⟨[], false, by simp, rfl⟩
  | argument :: rest => by
    by_cases hseed : argument = bytes "--seed"
    · cases rest with
      | nil => exact ⟨[], true, by simp, by rw [hseed]; rfl⟩
      | cons value rest =>
        obtain ⟨pieces, waiting, hproper, hrest⟩ := exists_written rest
        refine ⟨.seed value :: pieces, waiting, List.forall_mem_cons.mpr ⟨trivial, hproper⟩, ?_⟩
        rw [written_cons, hseed, hrest]
        rfl
    · obtain ⟨pieces, waiting, hproper, hrest⟩ := exists_written rest
      by_cases hflag : IsFlag argument
      · refine ⟨.flag argument :: pieces, waiting, List.forall_mem_cons.mpr ⟨hflag, hproper⟩, ?_⟩
        rw [written_cons, hrest]
        rfl
      · refine ⟨.word argument :: pieces, waiting,
          List.forall_mem_cons.mpr ⟨⟨hflag, hseed⟩, hproper⟩, ?_⟩
        rw [written_cons, hrest]
        rfl

/-! ## 3. Further flags -/

/-- A flag behind some pieces changes nothing but that everything is reported. -/
theorem readOptions_insert_flag {front : List Piece} (h : ∀ piece ∈ front, piece.IsProper)
    {flag : Bytes} (hflag : IsFlag flag) (back : List Bytes) :
    readOptions (front.flatMap Piece.arguments ++ flag :: back) =
      (readOptions (front.flatMap Piece.arguments ++ back)).map Options.loud := by
  induction front with
  | nil => exact readOptions_flag hflag back
  | cons piece front ih =>
    obtain ⟨hpiece, hfront⟩ := List.forall_mem_cons.mp h
    have hothers := ih hfront
    rw [List.flatMap_cons, List.append_assoc, List.append_assoc]
    cases piece with
    | flag spelling =>
      simp only [Piece.arguments, List.cons_append, List.nil_append]
      rw [readOptions_flag hpiece, readOptions_flag hpiece, hothers]
    | seed value =>
      simp only [Piece.arguments, List.cons_append, List.nil_append]
      rw [readOptions_seed, readOptions_seed, hothers]
      split
      · cases readOptions (front.flatMap Piece.arguments ++ back) <;> rfl
      · rfl
    | word text =>
      simp only [Piece.arguments, List.cons_append, List.nil_append]
      rw [readOptions_word hpiece.1 hpiece.2, readOptions_word hpiece.1 hpiece.2, hothers]
      cases readOptions (front.flatMap Piece.arguments ++ back) <;> rfl

end DiceFormula.CommandLine
