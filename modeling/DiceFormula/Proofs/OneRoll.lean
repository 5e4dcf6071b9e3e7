import DiceFormula.CommandLine.Run
import DiceFormula.CommandLine.Shown
import DiceFormula.Proofs.Endings
import DiceFormula.Proofs.Options

/-!
# Runs with one roll

A run with wrong arguments complains and rolls nothing. A run with a roll among its arguments prints
the outcome or one error line, and never both, unless a draw never ends.
-/

namespace DiceFormula.CommandLine

/-! ## 1. Lines on standard error -/

theorem bytes_plain_feed : bytes "\x1b[0m\n" = plain ++ bytes "\n" := by
  simp only [plain, ← bytes_append, String.reduceAppend]

theorem errorLine_eq (message : Bytes) :
    errorLine message =
      { out := []
        err := bytes "\x1b[31m\x1b[1m✗ Ошибка: \x1b[0m\x1b[31m" ++ message ++ bytes "\x1b[0m\n" } := by
  have hfront : bytes "\x1b[31m\x1b[1m✗ Ошибка: \x1b[0m\x1b[31m" =
      red ++ bold ++ bytes "✗ Ошибка: " ++ plain ++ red := by
    simp only [red, bold, plain, ← bytes_append, String.reduceAppend]
  rw [errorLine, hfront, bytes_plain_feed]
  simp only [List.append_assoc]

theorem untilNul_append {front : Bytes} (hfront : ∀ b ∈ front, b ≠ 0) (rest : Bytes) :
    untilNul (front ++ rest) = front ++ untilNul rest :=
  List.takeWhile_append_of_pos fun b hb => bne_iff_ne.mpr (hfront b hb)

theorem usage_eq :
    usage = bytes "\x1b[90mИспользование: dice_roller [-v] [--seed N] [бросок...]\x1b[0m\n" := by
  simp only [usage, gray, plain, ← bytes_append, String.reduceAppend]

theorem rejects_of_errorLine {fault : InputFault} (h : fault ≠ .endOfInput) :
    Rejects fault ((errorLine (untilNul fault.message)).err ++ usage) := by
  rw [errorLine_eq, usage_eq]
  cases fault with
  | missingSeed =>
    have hline : bytes "\x1b[31m\x1b[1m✗ Ошибка: \x1b[0m\x1b[31mПосле --seed ожидалось число\x1b[0m\n" =
        bytes "\x1b[31m\x1b[1m✗ Ошибка: \x1b[0m\x1b[31m" ++ bytes "После --seed ожидалось число" ++
          bytes "\x1b[0m\n" := by
      simp only [← bytes_append, String.reduceAppend]
    have hmessage : untilNul InputFault.missingSeed.message = bytes "После --seed ожидалось число" := by
      decide +kernel
    rw [hmessage, ← hline]
    exact .missingSeed
  | badSeed value =>
    have hfront : bytes "\x1b[31m\x1b[1m✗ Ошибка: \x1b[0m\x1b[31mНекорректное значение зерна: " =
        bytes "\x1b[31m\x1b[1m✗ Ошибка: \x1b[0m\x1b[31m" ++
          bytes "Некорректное значение зерна: " := by
      simp only [← bytes_append, String.reduceAppend]
    have hmessage : untilNul (InputFault.badSeed value).message =
        bytes "Некорректное значение зерна: " ++ untilNul value :=
      untilNul_append (by decide +kernel) value
    rw [hmessage, ← List.append_assoc, ← hfront]
    exact .badSeed
  | endOfInput => exact absurd rfl h

/-- Every fault that a roll can end with has its line. -/
theorem exists_complains {text : Bytes} {fault : Fault DrawFault} {draws : List (Draw DrawFault)}
    (h : RollEnds text (.error fault) draws) : ∃ line, Complains text fault line := by
  cases h with
  | unreadable => exact ⟨_, .unreadable⟩
  | meaningless => exact ⟨_, .meaningless⟩
  | failed => exact ⟨_, .failed⟩

theorem rollError_eq {front : Bytes} {fault : Fault} (text : Bytes)
    (hfront : front = bytes "\x1b[31m\x1b[1m✗ Ошибка: \x1b[0m\x1b[31m" ++
      (failedStage fault ++ bytes " \"")) :
    rollError text fault =
      { out := [], err := front ++ text ++ bytes "\": " ++ fault.shown ++ bytes "\x1b[0m\n" } := by
  rw [rollError, errorLine_eq, hfront]
  simp only [List.append_assoc]

theorem rollError_of_complains {text line : Bytes} {fault : Fault DrawFault}
    (h : Complains text fault line) :
    rollError text (fault.mapSource DrawFault.toSource) = { out := [], err := line } := by
  cases h with
  | unreadable =>
    apply rollError_eq text
    simp only [Fault.mapSource, failedStage, ← bytes_append, String.reduceAppend]
  | meaningless =>
    apply rollError_eq text
    simp only [Fault.mapSource, failedStage, ← bytes_append, String.reduceAppend]
  | failed =>
    apply rollError_eq text
    simp only [Fault.mapSource, failedStage, ← bytes_append, String.reduceAppend]

/-! ## 2. One roll -/

variable {text line : Bytes} {generator state later : Twister}

theorem answerRoll_of_complains {fault : Fault DrawFault} (h : Complains text fault line)
    (hrun : (roll Source.twister text).runFrom state = (.error fault, later)) (verbose : Bool) :
    answerRoll verbose text state = some ({ out := [], err := line }, false, later) := by
  rw [← rollError_of_complains h, answerRoll, hrun]
  cases h <;> rfl

theorem answerRoll_of_ok {shown : Bytes} {outcome : Outcome}
    (hrun : (roll Source.twister text).runFrom state = (.ok outcome, later)) {verbose : Bool}
    (hprinted : printed verbose outcome = .ok shown) :
    answerRoll verbose text state = some (.shown shown, true, later) := by
  rw [answerRoll, hrun]
  dsimp only
  rw [hprinted]

theorem answerRoll_of_endless
    (hrun : (roll Source.twister text).runFrom state = (.error (.source .endless), later))
    (verbose : Bool) : answerRoll verbose text state = none := by
  rw [answerRoll, hrun]

theorem endsOnce_valueLine (outcome : Outcome) :
    EndsOnce false text (.ok outcome) (0, .shown (valueLine outcome)) := by
  have hvalued := @EndsOnce.valued false text outcome rfl
  rw [bytes_plain_feed, ← List.append_assoc] at hvalued
  exact hvalued

/-- A roll leaves the generator behind its draws, and what it comes to has been printed, unless it
has no end. -/
theorem answerRoll_ends (hleads : generator.LeadsTo state) (verbose : Bool) (text : Bytes) :
    (∃ output success, answerRoll verbose text state =
        some (output, success, ((roll Source.twister text).runFrom state).2) ∧
      EndsOnce verbose text ((roll Source.twister text).runFrom state).1
        (if success then 0 else 1, output)) ∨
      answerRoll verbose text state = none ∧
        ((roll Source.twister text).runFrom state).1 = .error (.source .endless) ∧
        Uniform.RunsDry generator := by
  obtain ⟨-, hends | ⟨hendless, hdry⟩⟩ := roll_twister_ends hleads text
  · left
    cases hrun : (roll Source.twister text).runFrom state with
    | mk answer later =>
      rw [hrun] at hends
      cases answer with
      | error fault =>
        obtain ⟨line, hline⟩ := exists_complains hends
        exact ⟨_, _, answerRoll_of_complains hline hrun verbose, .refused hline⟩
      | ok outcome =>
        cases hends with
        | finished _ _ hreadable =>
          cases verbose with
          | true =>
            obtain ⟨report, hreport⟩ := hreadable.report
            have hprinted : printed true outcome = .ok report := by
              rw [printed, if_pos rfl, hreport]
              rfl
            exact ⟨_, _, answerRoll_of_ok hrun hprinted, .reported rfl hreport⟩
          | false => exact ⟨_, _, answerRoll_of_ok hrun rfl, endsOnce_valueLine outcome⟩
  · right
    exact ⟨answerRoll_of_endless (Prod.ext hendless rfl) verbose, hendless, hdry⟩

/-! ## 3. All arguments -/

theorem collect_ne_endOfInput (pieces : List Piece) (waiting : Bool) :
    collect pieces waiting ≠ .error .endOfInput := by
  unfold collect
  dsimp only
  split
  · exact fun h => nomatch h
  · split <;> exact fun h => nomatch h

theorem run?_of_error {arguments : List Bytes} {fault : InputFault}
    (h : readOptions arguments = .error fault) (input : Bytes) (spareSeed : UInt64) :
    ∃ lines, Rejects fault lines ∧
      run? arguments input spareSeed = some (1, { out := [], err := lines }) := by
  have hfault : fault ≠ .endOfInput := by
    rintro rfl
    obtain ⟨pieces, waiting, hproper, rfl⟩ := exists_written arguments
    rw [readOptions_written hproper] at h
    exact collect_ne_endOfInput pieces waiting h
  refine ⟨_, rejects_of_errorLine hfault, ?_⟩
  unfold run? start
  rw [h]
  rfl

/-- A run with a roll among its arguments makes that roll and nothing else. -/
theorem run?_of_roll {arguments : List Bytes} {options : Options}
    (h : readOptions arguments = .ok options) (hroll : options.roll ≠ []) (input : Bytes)
    (spareSeed : UInt64) :
    run? arguments input spareSeed =
      (answerRoll options.verbose options.roll
        (Twister.ofSeed (options.seed.getD spareSeed))).map
          fun answer => (if answer.2.1 then 0 else 1, answer.1) := by
  have hempty : ¬ options.roll.isEmpty = true := by rwa [List.isEmpty_iff]
  unfold run? start
  rw [h]
  dsimp only
  rw [if_neg hempty]
  cases answerRoll options.verbose options.roll (Twister.ofSeed (options.seed.getD spareSeed)) <;> rfl

/-- Wrong arguments are complained about, with the usage, and nothing is rolled. A seed and a roll
among the arguments give what rolling the text with a generator of that seed gives: the report or
the value, or one error line that tells the text and what it failed at, or no end at all where the
words of the generator are all rejected from a place on. The arguments are cut into proper pieces,
and what they ask for is what the pieces stand for. One more flag in front of them, between two of
them or behind them changes only how much is reported. -/
theorem run_once (arguments : List Bytes) (input : Bytes) (spareSeed : UInt64) :
    (∀ fault, readOptions arguments = .error fault → ∃ lines, Rejects fault lines ∧
      run? arguments input spareSeed = some (1, { out := [], err := lines })) ∧
    (∀ options seed, readOptions arguments = .ok options → options.seed = some seed →
      options.roll ≠ [] →
      (∃ ended, run? arguments input spareSeed = some ended ∧
        EndsOnce options.verbose options.roll
          ((roll Source.twister options.roll).runFrom (Twister.ofSeed seed)).1 ended) ∨
      run? arguments input spareSeed = none ∧
        ((roll Source.twister options.roll).runFrom (Twister.ofSeed seed)).1 =
          .error (.source .endless) ∧
        Uniform.RunsDry (Twister.ofSeed seed)) ∧
    (∃ pieces waiting, (∀ piece ∈ pieces, Piece.IsProper piece) ∧
      arguments = written pieces waiting) ∧
    (∀ pieces waiting, (∀ piece ∈ pieces, Piece.IsProper piece) →
      arguments = written pieces waiting → readOptions arguments = collect pieces waiting) ∧
    ∀ (front : List Piece) (back : List Bytes) (flag : Bytes), (∀ piece ∈ front, piece.IsProper) →
      arguments = front.flatMap Piece.arguments ++ back → IsFlag flag →
        readOptions (front.flatMap Piece.arguments ++ flag :: back) =
          (readOptions arguments).map Options.loud := by
  refine ⟨fun fault h => run?_of_error h input spareSeed, ?_, exists_written arguments, ?_, ?_⟩
  · intro options seed h hseed hroll
    have hrun := run?_of_roll h hroll input spareSeed
    rw [hseed, Option.getD_some] at hrun
    rcases answerRoll_ends (Twister.leadsTo_self (Twister.ofSeed seed)) options.verbose options.roll
      with ⟨output, success, hanswer, hends⟩ | ⟨hanswer, hendless, hdry⟩
    · rw [hanswer] at hrun
      exact .inl ⟨_, hrun, hends⟩
    · rw [hanswer] at hrun
      exact .inr ⟨hrun, hendless, hdry⟩
  · rintro pieces waiting hproper rfl
    exact readOptions_written hproper waiting
  · rintro front back flag hproper rfl hflag
    exact readOptions_insert_flag hproper hflag back

-- The first two words behind this seed stand for a five and a six of a die.
theorem found_five : Uniform.Found 1 6 (Twister.ofSeed 7) 0 5 where
  rejected := fun _ h => absurd h (Nat.not_lt_zero _)
  accepted := by decide +kernel

theorem roll_pair :
    ∃ outcome, ((roll Source.twister (bytes "2 d6")).runFrom (Twister.ofSeed 7)).1 = .ok outcome ∧
      outcome.value.format = bytes "[5, 6]" := by
  have hcompile : compile (bytes "2 d6") = .ok (.repeated 2 (.dice { count := 1, sides := 6 })) := by
    cbv
  have hfirst := evaluate_die (by decide) found_five (by decide)
  have hsecond := evaluate_die (by decide)
    (⟨fun _ h => absurd h (Nat.not_lt_zero _), by decide +kernel⟩ :
      Uniform.Found 1 6 (leftAfter Twister.next 1 (Twister.ofSeed 7)) 0 6) (by decide)
  have htwice : (2 : Int).toNat = 2 := rfl
  rw [runFrom_roll, hcompile]
  dsimp only
  rw [evaluate, htwice, times, times, times]
  simp only [Rolling.runFrom_bind, Rolling.runFrom_pure, hfirst, hsecond]
  exact ⟨_, rfl, by cbv⟩

/-- A word in front of the seed and one behind it make one roll. A flag between `--seed` and its
value would be that value, and no seed. -/
theorem run_once_pieces :
    let arguments := [bytes "2", bytes "--seed", bytes "7", bytes "d6"]
    let misplaced := [bytes "--seed", bytes "-v", bytes "7"]
    let front := [Piece.word (bytes "2"), .seed (bytes "7")]
    (∀ piece ∈ front, piece.IsProper) ∧ arguments = front.flatMap Piece.arguments ++ [bytes "d6"] ∧
      readOptions (front.flatMap Piece.arguments ++ [bytes "-v", bytes "d6"]) =
        .ok { verbose := true, seed := some 7, words := [bytes "2", bytes "d6"] } ∧
      run? arguments [] 0 = some (0, { out := bytes "\x1b[32m[5, 6]\x1b[0m\n", err := [] }) ∧
      readOptions misplaced = .error (.badSeed (bytes "-v")) ∧
      run? misplaced [] 0 = some (1,
        { out := []
          err :=
            bytes "\x1b[31m\x1b[1m✗ Ошибка: \x1b[0m\x1b[31mНекорректное значение зерна: -v\x1b[0m\n" ++
            bytes "\x1b[90mИспользование: dice_roller [-v] [--seed N] [бросок...]\x1b[0m\n" }) := by
  intro arguments misplaced front
  have hproper : ∀ piece ∈ front, piece.IsProper := by decide
  have hfront : arguments = front.flatMap Piece.arguments ++ [bytes "d6"] := rfl
  have hoptions : readOptions arguments =
      .ok { verbose := false, seed := some 7, words := [bytes "2", bytes "d6"] } := rfl
  have hroll : Options.roll { verbose := false, seed := some 7, words := [bytes "2", bytes "d6"] } =
      bytes "2 d6" := by decide
  have hbad : readOptions misplaced = .error (.badSeed (bytes "-v")) := rfl
  obtain ⟨-, hrun, -, -, hinsert⟩ := run_once arguments [] 0
  obtain ⟨hwrong, -⟩ := run_once misplaced [] 0
  have hends := hrun _ 7 hoptions rfl (by rw [hroll]; decide)
  rw [hroll] at hends
  refine ⟨hproper, hfront, ?_, ?_, hbad, ?_⟩
  · rw [hinsert front [bytes "d6"] (bytes "-v") hproper hfront (by decide), hoptions]
    rfl
  · obtain ⟨outcome, hpair, hformat⟩ := roll_pair
    rw [hpair] at hends
    obtain ⟨ended, hended, hends⟩ | ⟨-, hendless, -⟩ := hends
    · cases hends with
      | valued =>
        rw [hended, hformat]
        simp only [← bytes_append, String.reduceAppend]
      | reported hverbose => exact nomatch hverbose
    · exact nomatch hendless
  · obtain ⟨lines, hlines, hended⟩ := hwrong _ hbad
    have hvalue : untilNul (bytes "-v") = bytes "-v" := by decide
    rw [hended]
    cases hlines
    rw [hvalue]
    simp only [← bytes_append, String.reduceAppend]

end DiceFormula.CommandLine
