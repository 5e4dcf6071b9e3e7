import DiceFormula.CommandLine.Session
import DiceFormula.Proofs.Answers
import DiceFormula.Proofs.OneRoll

/-!
# Whole sessions

A dialogue takes one line at a time. By induction on the lines that are left, what it rolls and
prints is what the session as a whole is said to roll and print.
-/

namespace DiceFormula.CommandLine

/-! ## 1. Lines -/

theorem lines_feed (rest : Bytes) : lines (ascii '\n' :: rest) = [] :: lines rest := by
  rw [lines, if_pos rfl]

theorem areLines_nil : AreLines [] [] where
  whole _ hline := nomatch hline
  joined := .inl rfl

/-- A line feed in front ends a line of its own. -/
theorem AreLines.feed {input : Bytes} {lines : List Bytes} (h : AreLines input lines) :
    AreLines (ascii '\n' :: input) ([] :: lines) where
  whole := List.forall_mem_cons.mpr ⟨List.not_mem_nil, h.whole⟩
  joined := by
    rw [List.flatMap_cons]
    cases h.joined with
    | inl hended => exact .inl (by rw [hended]; rfl)
    | inr hopen =>
      obtain ⟨hne, hlast, hjoined⟩ := hopen
      refine .inr ⟨List.cons_ne_nil _ _, ?_, by rw [hjoined]; rfl⟩
      obtain ⟨b, rest, rfl⟩ := List.exists_cons_of_ne_nil hne
      rwa [List.getLast?_cons_cons]

/-- Another byte in front belongs to the first line, if there is one. -/
theorem AreLines.byte {input line : Bytes} {others : List Bytes} (h : AreLines input (line :: others))
    {b : UInt8} (hb : b ≠ ascii '\n') : AreLines (b :: input) ((b :: line) :: others) where
  whole := by
    obtain ⟨hline, hothers⟩ := List.forall_mem_cons.mp h.whole
    refine List.forall_mem_cons.mpr ⟨fun hmem => ?_, hothers⟩
    cases List.mem_cons.mp hmem with
    | inl heq => exact hb heq.symm
    | inr hmem => exact hline hmem
  joined := by
    have hfirst : ((b :: line) :: others).flatMap (· ++ bytes "\n") =
        b :: (line :: others).flatMap (· ++ bytes "\n") := by
      rw [List.flatMap_cons, List.flatMap_cons]
      rfl
    rw [hfirst]
    cases h.joined with
    | inl hended => exact .inl (by rw [hended])
    | inr hopen =>
      obtain ⟨hne, hlast, hjoined⟩ := hopen
      refine .inr ⟨List.cons_ne_nil _ _, ?_, by rw [hjoined]; rfl⟩
      obtain ⟨c, rest, rfl⟩ := List.exists_cons_of_ne_nil hne
      rwa [List.getLast?_cons_cons]

theorem AreLines.eq_nil {input : Bytes} (h : AreLines input []) : input = [] := by
  cases h.joined with
  | inl hended => exact hended.symm
  | inr hopen => exact absurd hopen.2.2.symm (List.append_ne_nil_of_right_ne_nil _ (by decide))

theorem areLines_single {b : UInt8} (hb : b ≠ ascii '\n') : AreLines [b] [[b]] where
  whole := by
    rw [List.forall_mem_singleton, List.mem_singleton]
    exact hb.symm
  joined := by
    refine .inr ⟨List.cons_ne_nil _ _, fun hlast => hb ?_, rfl⟩
    exact Option.some.inj hlast

theorem areLines_lines (input : Bytes) : AreLines input (lines input) := by
  induction input with
  | nil => exact areLines_nil
  | cons b rest ih =>
    by_cases hb : b = ascii '\n'
    · rw [hb, lines_feed]
      exact ih.feed
    · rw [lines, if_neg hb]
      cases hrest : lines rest with
      | nil =>
        rw [hrest] at ih
        rw [ih.eq_nil]
        exact areLines_single hb
      | cons line others =>
        rw [hrest] at ih
        exact ih.byte hb

/-! ## 2. Outputs one after another -/

namespace Output

theorem append_assoc (a b c : Output) : a ++ b ++ c = a ++ (b ++ c) := by
  show Output.mk _ _ = Output.mk _ _
  exact congrArg₂ Output.mk (List.append_assoc ..) (List.append_assoc ..)

@[simp] theorem append_empty (a : Output) : a ++ {} = a := by
  show Output.mk _ _ = _
  exact congrArg₂ Output.mk (List.append_nil a.out) (List.append_nil a.err)

@[simp] theorem empty_append (a : Output) : ({} : Output) ++ a = a := rfl

theorem shown_append (a b : Bytes) : shown (a ++ b) = shown a ++ shown b := rfl

theorem append_eq (a b : Output) : a ++ b = { out := a.out ++ b.out, err := a.err ++ b.err } := rfl

end Output

/-! ## 3. Lines that ask -/

theorem isPadding_iff (b : UInt8) : isPadding b = true ↔ b = ascii ' ' ∨ b = ascii '\t' := by
  rw [isPadding, Bool.or_eq_true, beq_iff_eq, beq_iff_eq]

theorem isPadding_eq_false_iff (b : UInt8) :
    isPadding b = false ↔ b ≠ ascii ' ' ∧ b ≠ ascii '\t' := by
  rw [← Bool.not_eq_true, isPadding_iff, not_or]

theorem isPadding_lower (b : UInt8) : isPadding (lower b) = isPadding b := by
  have hall : ∀ b : UInt8, isPadding (lower b) = isPadding b := by decide +kernel
  exact hall b

theorem not_isPadding_of_head? {front : Bytes} {b : UInt8}
    (h : (front.dropWhile isPadding).head? = some b) : isPadding b = false := by
  have hhead := List.head?_dropWhile_not isPadding front
  rw [h] at hhead
  exact hhead

/-- What is left of a line has no padding at its ends. -/
theorem trim_ends (line : Bytes) (b : UInt8)
    (h : (trim line).head? = some b ∨ (trim line).getLast? = some b) : isPadding b = false := by
  cases h with
  | inl hfirst =>
    have hrest : line.dropWhile isPadding = trim line ++
        ((line.dropWhile isPadding).reverse.takeWhile isPadding).reverse := by
      rw [trim, ← List.reverse_append, List.takeWhile_append_dropWhile, List.reverse_reverse]
    have hhead : (line.dropWhile isPadding).head? = some b := by
      rw [hrest, List.head?_append, hfirst, Option.some_or]
    exact not_isPadding_of_head? hhead
  | inr hlast =>
    rw [trim, List.getLast?_reverse] at hlast
    exact not_isPadding_of_head? hlast

theorem asksFor_textOf (line : Bytes) : AsksFor line (textOf line) := by
  obtain ⟨before, after, hline, hbefore, hafter⟩ := exists_padding line
  have hpadding : ∀ b ∈ before ++ after, b = ascii ' ' ∨ b = ascii '\t' := by
    intro b hb
    exact (isPadding_iff b).mp ((List.mem_append.mp hb).elim (hbefore b) (hafter b))
  unfold textOf
  split
  next hempty =>
    rw [hempty, List.append_nil] at hline
    exact .usual (hline ▸ hpadding)
  next htext =>
    refine .spelled hline hpadding (fun b hb => ?_) htext
    exact (isPadding_eq_false_iff b).mp (trim_ends line b hb)

theorem isAffirmative_iff_asksAgain (line : Bytes) :
    isAffirmative (some line) = true ↔ AsksAgain line := by
  rw [isAffirmative, List.contains_iff_mem]
  constructor
  · intro hword
    obtain ⟨before, after, hline, hbefore, hafter⟩ := exists_padding line
    refine ⟨before, trim line, after, hline, fun b hb => ?_, hword⟩
    exact (isPadding_iff b).mp ((List.mem_append.mp hb).elim (hbefore b) (hafter b))
  · rintro ⟨before, word, after, rfl, hpadding, hword⟩
    have hbytes : (affirmations.all fun word => word.all fun b => !isPadding b) = true := by
      decide +kernel
    simp only [List.all_eq_true, Bool.not_eq_true'] at hbytes
    -- Small letters are no padding, so the word has none before it is folded either.
    have hcore : ∀ b ∈ word, isPadding b = false := by
      intro b hb
      rw [← isPadding_lower]
      exact hbytes _ hword _ (List.mem_map_of_mem hb)
    have htrim : trim (before ++ word ++ after) = word :=
      trim_padded (fun b hb => (isPadding_iff b).mpr (hpadding b (List.mem_append_left after hb)))
        hcore fun b hb => (isPadding_iff b).mpr (hpadding b (List.mem_append_right before hb))
    rw [htrim]
    exact hword

/-! ## 4. Rolls and answers -/

variable {line answer : Bytes} {rest : List Bytes}

theorem everyOther_cons {α : Type} (item : α) (items : List α) :
    everyOther (item :: items) = item :: everyOther items.tail := by
  cases items <;> rfl

theorem rollOfLine_some (line : Bytes) : rollOfLine (some line) = .ok (textOf line) := by
  unfold rollOfLine textOf
  simp only [List.isEmpty_iff, defaultRoll]

theorem assents_of_affirmative (h : isAffirmative (some answer) = true) :
    assents (line :: answer :: rest) = assents rest + 1 := by
  unfold assents
  rw [List.tail_cons, everyOther_cons, List.takeWhile_cons, if_pos h, List.length_cons]

theorem assents_of_not_affirmative (h : isAffirmative (some answer) = false) :
    assents (line :: answer :: rest) = 0 := by
  unfold assents
  rw [List.tail_cons, everyOther_cons, List.takeWhile_cons, h]
  rfl

theorem rolledTexts_cons (line : Bytes) (rest : List Bytes) :
    rolledTexts (line :: rest) =
      textOf line :: ((everyOther rest.tail).take (assents (line :: rest))).map textOf := by
  rw [rolledTexts, rollLines, everyOther_cons, List.take_succ_cons, List.map_cons]

theorem rolledTexts_of_affirmative (h : isAffirmative (some answer) = true) :
    rolledTexts (line :: answer :: rest) = textOf line :: rolledTexts rest := by
  rw [rolledTexts_cons, assents_of_affirmative h]
  rfl

theorem rolledTexts_of_not_affirmative (h : isAffirmative (some answer) = false) :
    rolledTexts (line :: answer :: rest) = [textOf line] := by
  rw [rolledTexts_cons, assents_of_not_affirmative h]
  rfl

/-! ## 5. What is printed -/

theorem header_eq_banner : header = banner := by
  have hfront : bytes "\x1b[1m\x1b[36m" = bold ++ cyan := by
    simp only [bold, cyan, ← bytes_append, String.reduceAppend]
  rw [header, banner, hfront, bytes_plain_feed]
  simp only [List.append_assoc]

theorem rollPrompt_eq : rollPrompt = bytes "\x1b[1mВведите бросок (Enter — 1d20): \x1b[0m" := by
  simp only [rollPrompt, bold, defaultRoll, plain, ← bytes_append, String.reduceAppend]

theorem continuePrompt_eq : continuePrompt = bytes "\x1b[1mБросить еще раз? (y/n): \x1b[0m" := by
  simp only [continuePrompt, bold, plain, ← bytes_append, String.reduceAppend]

theorem farewell_eq : farewell = bytes "\x1b[36mРабота завершена. До свидания!\x1b[0m\n\n" := by
  simp only [farewell, cyan, plain, ← bytes_append, String.reduceAppend]

theorem transcript_nil :
    transcript [] 0 =
      .shown rollPrompt ++
        (errorLine (untilNul InputFault.endOfInput.message) ++ .shown farewell) := by
  have hmessage : untilNul InputFault.endOfInput.message = bytes "Ввод завершён" := by
    decide +kernel
  have hline : bytes "\x1b[31m\x1b[1m✗ Ошибка: \x1b[0m\x1b[31mВвод завершён\x1b[0m\n" =
      bytes "\x1b[31m\x1b[1m✗ Ошибка: \x1b[0m\x1b[31m" ++ bytes "Ввод завершён" ++
        bytes "\x1b[0m\n" := by
    simp only [← bytes_append, String.reduceAppend]
  rw [errorLine_eq, hmessage, ← hline, rollPrompt_eq, farewell_eq]
  rfl

theorem transcript_last (output : Output) :
    transcript [output] 0 =
      .shown rollPrompt ++ (output ++ (.shown continuePrompt ++ .shown farewell)) := by
  rw [rollPrompt_eq, continuePrompt_eq, farewell_eq, transcript]
  simp [Output.concat, Output.append_assoc]

theorem transcript_cons (output : Output) (shows : List Output) (assents : Nat) :
    transcript (output :: shows) (assents + 1) = .shown rollPrompt ++ (output ++
      (.shown continuePrompt ++ (.shown (bytes "\n") ++ transcript shows assents))) := by
  rw [rollPrompt_eq, continuePrompt_eq, transcript, transcript]
  simp [Output.concat, Output.append_assoc]

theorem farewell_suffix_transcript (shows : List Output) (assents : Nat) :
    bytes "\x1b[36mРабота завершена. До свидания!\x1b[0m\n\n" <:+ (transcript shows assents).out :=
  List.suffix_append _ _

theorem shows_of_endsOnce {text : Bytes} {answer : Except (Fault DrawFault) Outcome}
    {exitCode : UInt32} {output : Output} (h : EndsOnce true text answer (exitCode, output)) :
    Shows text answer (.shown (bytes "\n") ++ output ++ .shown (bytes "\n")) := by
  cases h with
  | reported _ hreport => exact .finished hreport
  | valued hverbose => exact nomatch hverbose
  | @refused fault errors hline =>
    have hshows : Shows text (.error fault) { out := bytes "\n\n", err := errors ++ [] } := by
      rw [List.append_nil]
      exact .refused hline
    exact hshows

/-! ## 6. The course of a dialogue -/

variable {generator state later : Twister}

-- A line is taken for a roll, whatever comes of it.
theorem continued_of_answerRoll {output : Output} {success : Bool}
    (h : answerRoll true (textOf line) state = some (output, success, later)) (rest : List Bytes) :
    (Dialogue.awaitingRoll state).continued (line :: rest) =
      ((Dialogue.awaitingAnswer later).continued rest).map fun others =>
        .shown (bytes "\n") ++ output ++ .shown (bytes "\n") ++ (.shown continuePrompt ++ others) := by
  rw [Dialogue.continued.eq_def]
  simp only [Dialogue.turn, rollOfLine_some, h, Option.bind_eq_bind, Option.bind_some,
    Output.shown_append, Output.append_assoc]
  cases (Dialogue.awaitingAnswer later).continued rest <;> rfl

theorem continued_of_endless (h : answerRoll true (textOf line) state = none) (rest : List Bytes) :
    (Dialogue.awaitingRoll state).continued (line :: rest) = none := by
  rw [Dialogue.continued.eq_def]
  simp only [Dialogue.turn, rollOfLine_some, h, Option.bind_eq_bind, Option.bind_none]

theorem continued_of_affirmative (h : isAffirmative (some answer) = true) (state : Twister)
    (rest : List Bytes) :
    (Dialogue.awaitingAnswer state).continued (answer :: rest) =
      ((Dialogue.awaitingRoll state).continued rest).map fun others =>
        .shown (bytes "\n") ++ (.shown rollPrompt ++ others) := by
  rw [Dialogue.continued.eq_def]
  simp only [Dialogue.turn, h, if_true, Option.bind_eq_bind, Option.bind_some, Output.shown_append,
    Output.append_assoc]
  cases (Dialogue.awaitingRoll state).continued rest <;> rfl

theorem continued_of_not_affirmative (h : isAffirmative (some answer) = false) (state : Twister)
    (rest : List Bytes) :
    (Dialogue.awaitingAnswer state).continued (answer :: rest) = some (.shown farewell) := by
  rw [Dialogue.continued.eq_def]
  simp only [Dialogue.turn, h, Bool.false_eq_true, if_false, Dialogue.continued, Option.bind_eq_bind,
    Option.bind_some, Output.append_empty]

/-- A dialogue that waits for a roll goes on as the lines that are left ask for, to its end or to a
draw without one. -/
theorem continued_ends (lines : List Bytes) (hleads : generator.LeadsTo state) :
    (∃ shows others, AllShow (rolledFrom state (rolledTexts lines)) shows ∧
        (Dialogue.awaitingRoll state).continued lines = some others ∧
        .shown rollPrompt ++ others = transcript shows (assents lines)) ∨
      (Dialogue.awaitingRoll state).continued lines = none ∧
        (∃ rolled ∈ rolledFrom state (rolledTexts lines),
          rolled.2 = .error (.source .endless)) ∧
        Uniform.RunsDry generator := by
  induction lines using everyOther.induct generalizing state with
  | case1 => exact .inl ⟨[], _, .nil, rfl, transcript_nil.symm⟩
  | case2 line =>
    rcases answerRoll_ends hleads true (textOf line) with
      ⟨output, success, hanswer, hends⟩ | ⟨hanswer, hendless, hdry⟩
    · refine .inl ⟨_, _, .cons (shows_of_endsOnce hends) .nil, continued_of_answerRoll hanswer [], ?_⟩
      exact (transcript_last _).symm
    · exact .inr ⟨continued_of_endless hanswer [], ⟨_, List.mem_cons_self, hendless⟩, hdry⟩
  | case3 line answer rest ih =>
    rcases answerRoll_ends hleads true (textOf line) with
      ⟨output, success, hanswer, hends⟩ | ⟨hanswer, hendless, hdry⟩
    · have hshows := shows_of_endsOnce hends
      have hlater := (roll_twister_ends hleads (textOf line)).1
      rw [continued_of_answerRoll hanswer]
      cases h : isAffirmative (some answer) with
      | true =>
        rw [continued_of_affirmative h, assents_of_affirmative h, rolledTexts_of_affirmative h]
        rcases ih hlater with ⟨shows, others, hall, hrest, htranscript⟩ | ⟨hrest, hendless, hdry⟩
        · rw [hrest]
          refine .inl ⟨_, _, .cons hshows hall, rfl, ?_⟩
          dsimp only
          rw [htranscript]
          exact (transcript_cons _ shows (assents rest)).symm
        · rw [hrest]
          obtain ⟨rolled, hmem, hrolled⟩ := hendless
          exact .inr ⟨rfl, ⟨rolled, List.mem_cons_of_mem _ hmem, hrolled⟩, hdry⟩
      | false =>
        rw [continued_of_not_affirmative h, assents_of_not_affirmative h,
          rolledTexts_of_not_affirmative h]
        refine .inl ⟨_, _, .cons hshows .nil, rfl, ?_⟩
        exact (transcript_last _).symm
    · rw [rolledTexts_cons]
      exact .inr ⟨continued_of_endless hanswer _, ⟨_, List.mem_cons_self, hendless⟩, hdry⟩

/-! ## 7. The whole run -/

theorem run?_of_dialogue {arguments : List Bytes} {options : Options}
    (h : readOptions arguments = .ok options) (hroll : options.roll = []) (input : Bytes)
    (spareSeed : UInt64) :
    run? arguments input spareSeed =
      ((Dialogue.awaitingRoll (Twister.ofSeed (options.seed.getD spareSeed))).continued
        (lines input)).map fun others =>
          (0, .shown header ++ (.shown rollPrompt ++ others)) := by
  have hempty : options.roll.isEmpty = true := by rw [hroll]; rfl
  unfold run? start
  rw [h]
  dsimp only
  rw [if_pos hempty]
  simp only [Dialogue.opening, Option.bind_eq_bind, Option.bind_some, Output.shown_append,
    Output.append_assoc]
  cases (Dialogue.awaitingRoll (Twister.ofSeed (options.seed.getD spareSeed))).continued
    (lines input) <;> rfl

/-- A run with a seed and without a roll among its arguments succeeds, whatever its input is, unless
the words of its generator are all rejected from a place on. It rolls what the lines of the input
ask for by turns, with one generator, and prints the transcript of that: no failed roll ends it, and
one more error is reported if and only if the input ends where a roll is asked for. The farewell
comes last. -/
theorem run_session {arguments : List Bytes} {options : Options} {seed : UInt64}
    (h : readOptions arguments = .ok options) (hseed : options.seed = some seed)
    (hroll : options.roll = []) (input : Bytes) (spareSeed : UInt64) :
    AreLines input (lines input) ∧ (∀ line, AsksFor line (textOf line)) ∧
      (∀ line, isAffirmative (some line) = true ↔ AsksAgain line) ∧
      ((∃ shows output,
          AllShow (rolledFrom (Twister.ofSeed seed) (rolledTexts (lines input))) shows ∧
          output = .shown banner ++ transcript shows (assents (lines input)) ∧
          run? arguments input spareSeed = some (0, output) ∧
          bytes "\x1b[36mРабота завершена. До свидания!\x1b[0m\n\n" <:+ output.out) ∨
        run? arguments input spareSeed = none ∧
          (∃ rolled ∈ rolledFrom (Twister.ofSeed seed) (rolledTexts (lines input)),
            rolled.2 = .error (.source .endless)) ∧
          Uniform.RunsDry (Twister.ofSeed seed)) := by
  refine ⟨areLines_lines input, asksFor_textOf, isAffirmative_iff_asksAgain, ?_⟩
  have hrun := run?_of_dialogue h hroll input spareSeed
  rw [hseed, Option.getD_some] at hrun
  rcases continued_ends (lines input) (Twister.leadsTo_self (Twister.ofSeed seed)) with
    ⟨shows, others, hshows, hothers, htranscript⟩ | ⟨hnone, hendless, hdry⟩
  · rw [hothers, Option.map_some, htranscript, header_eq_banner] at hrun
    refine .inl ⟨shows, _, hshows, rfl, hrun, ?_⟩
    exact (farewell_suffix_transcript shows (assents (lines input))).trans (List.suffix_append _ _)
  · rw [hnone] at hrun
    exact .inr ⟨hrun, hendless, hdry⟩

-- The first word behind this seed stands for a five of six, the second one for nineteen of twenty.
theorem rolledFrom_five_nineteen :
    ∃ outcome, rolledFrom (Twister.ofSeed 7) [bytes "d6/0", bytes "1d20"] =
        [(bytes "d6/0", .error (.evaluation .divisionByZero)), (bytes "1d20", .ok outcome)] ∧
      outcome.report = .ok (bytes "1d20 => [19] = 19\n") := by
  have hquotient : compile (bytes "d6/0") =
      .ok (.binary .div (.dice { count := 1, sides := 6 }) (.constant 0)) := by cbv
  have hdie : compile (bytes "1d20") = .ok (.dice { count := 1, sides := 20 }) := by cbv
  have hfirst := evaluate_die (by decide) found_five (by decide)
  have hsecond := evaluate_die (by decide)
    (⟨fun _ h => absurd h (Nat.not_lt_zero _), by decide +kernel⟩ :
      Uniform.Found 1 20 (leftAfter Twister.next 1 (Twister.ofSeed 7)) 0 19) (by decide)
  have hfailed : (roll Source.twister (bytes "d6/0")).runFrom (Twister.ofSeed 7) =
      (.error (.evaluation .divisionByZero), leftAfter Twister.next 1 (Twister.ofSeed 7)) := by
    rw [runFrom_roll, hquotient]
    dsimp only
    rw [evaluate, Rolling.runFrom_bind_of_ok hfirst]
    rfl
  refine ⟨.node (.dice { count := 1, sides := 20 }) (.number 19) [{ value := 19, sides := 20 }] [] [],
    ?_, by cbv⟩
  rw [rolledFrom, hfailed]
  dsimp only
  rw [rolledFrom, runFrom_roll, hdie]
  dsimp only
  rw [hsecond]
  rfl

/-- The third line is rolled after a failure, with what that has left of the generator; it is blank
and stands for the usual roll. Nothing is rolled behind an answer in a foreign capital letter. -/
theorem run_session_failure :
    let arguments := [bytes "--seed", bytes "7"]
    let input := bytes "d6/0\nYES \n\t\nД\nd6"
    readOptions arguments = .ok { verbose := false, seed := some 7, words := [] } ∧
      rolledTexts (lines input) = [bytes "d6/0", bytes "1d20"] ∧ assents (lines input) = 1 ∧
      AsksFor (bytes "\t") (bytes "1d20") ∧ AsksAgain (bytes "YES ") ∧
      run? arguments input 0 = some (0,
        { out :=
            bytes "\x1b[1m\x1b[36m" ++
            bytes "\n╔═══════════════════════════════════════════════════════════╗\n" ++
            bytes "║    Броски кубиков с разбором вычислений v1.0             ║\n" ++
            bytes "╚═══════════════════════════════════════════════════════════╝\n" ++
            bytes "\x1b[0m\n" ++
            bytes "\x1b[1mВведите бросок (Enter — 1d20): \x1b[0m" ++ bytes "\n\n" ++
            bytes "\x1b[1mБросить еще раз? (y/n): \x1b[0m" ++ bytes "\n" ++
            bytes "\x1b[1mВведите бросок (Enter — 1d20): \x1b[0m" ++
            bytes "\n1d20 => [19] = 19\n\n" ++
            bytes "\x1b[1mБросить еще раз? (y/n): \x1b[0m" ++
            bytes "\x1b[36mРабота завершена. До свидания!\x1b[0m\n\n"
          err :=
            bytes "\x1b[31m\x1b[1m✗ Ошибка: \x1b[0m\x1b[31mвычисление \"d6/0\": " ++
            bytes "Деление на ноль\x1b[0m\n" }) := by
  intro arguments input
  have hoptions : readOptions arguments =
      .ok { verbose := false, seed := some 7, words := [] } := rfl
  have htexts : rolledTexts (lines input) = [bytes "d6/0", bytes "1d20"] := by decide +kernel
  have hassents : assents (lines input) = 1 := by decide +kernel
  have hyes : isAffirmative (some (bytes "YES ")) = true := by decide
  have hshown : bytes "\n1d20 => [19] = 19\n\n" =
      bytes "\n" ++ bytes "1d20 => [19] = 19\n" ++ bytes "\n" := by
    simp only [← bytes_append, String.reduceAppend]
  have hstage : bytes "\x1b[31m\x1b[1m✗ Ошибка: \x1b[0m\x1b[31mвычисление \"d6/0\": " =
      bytes "\x1b[31m\x1b[1m✗ Ошибка: \x1b[0m\x1b[31mвычисление \"" ++ bytes "d6/0" ++
        bytes "\": " := by
    simp only [← bytes_append, String.reduceAppend]
  have hmessage : bytes "Деление на ноль\x1b[0m\n" =
      untilNul EvaluationFault.divisionByZero.message ++ bytes "\x1b[0m\n" := by
    decide +kernel
  obtain ⟨outcome, hrolled, hreport⟩ := rolledFrom_five_nineteen
  obtain ⟨-, hasksFor, hasksAgain, hrun⟩ := run_session hoptions rfl rfl input 0
  rw [htexts, hrolled, hassents] at hrun
  refine ⟨hoptions, htexts, hassents, hasksFor (bytes "\t"), (hasksAgain _).mp hyes, ?_⟩
  obtain ⟨shows, output, hshows, houtput, hrun, -⟩ | ⟨-, ⟨rolled, hmem, hendless⟩, -⟩ := hrun
  · rw [hrun, houtput]
    cases hshows with
    | cons hfirst hrest =>
      cases hrest with
      | cons hsecond hnil =>
        cases hnil
        cases hfirst with
        | refused hline =>
          cases hline
          cases hsecond with
          | finished hother =>
            rw [hreport] at hother
            cases hother
            rw [transcript_cons, transcript_last, rollPrompt_eq, continuePrompt_eq, farewell_eq,
              hshown, hstage, hmessage]
            simp only [Output.append_eq, Output.shown, banner, List.nil_append, List.append_nil,
              List.append_assoc]
  · -- Neither of the two rolls has a draw without an end.
    simp only [List.mem_cons, List.not_mem_nil, or_false] at hmem
    obtain rfl | rfl := hmem <;> exact nomatch hendless

end DiceFormula.CommandLine
