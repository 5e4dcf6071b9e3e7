import DiceFormula.CommandLine.Output
import DiceFormula.Source.Seeded

/-!
# What a roll leads to

The bytes on both outputs, colours included, that belong to a command line that is refused, to a run
with one roll and to one roll of a dialogue. They are written out and do not refer to the texts that
the program is put together from.
-/

namespace DiceFormula.CommandLine

/-- The two lines on standard error about arguments that cannot be used. -/
inductive Rejects : InputFault → Bytes → Prop where
  | missingSeed :
      Rejects .missingSeed
        (bytes "\x1b[31m\x1b[1m✗ Ошибка: \x1b[0m\x1b[31mПосле --seed ожидалось число\x1b[0m\n" ++
          bytes "\x1b[90mИспользование: dice_roller [-v] [--seed N] [бросок...]\x1b[0m\n")
  | badSeed {value : Bytes} :
      Rejects (.badSeed value)
        (bytes "\x1b[31m\x1b[1m✗ Ошибка: \x1b[0m\x1b[31mНекорректное значение зерна: " ++
          untilNul value ++ bytes "\x1b[0m\n" ++
          bytes "\x1b[90mИспользование: dice_roller [-v] [--seed N] [бросок...]\x1b[0m\n")

/-- The line on standard error about a roll that fails: what it failed at, the text, and the wording
of the fault up to the first NUL byte. A draw that never ends leads to none. -/
inductive Complains (text : Bytes) : Fault DrawFault → Bytes → Prop where
  | unreadable {fault : ReadingFault} :
      Complains text (.reading fault)
        (bytes "\x1b[31m\x1b[1m✗ Ошибка: \x1b[0m\x1b[31mсинтаксис броска \"" ++ text ++
          bytes "\": " ++ untilNul fault.message ++ bytes "\x1b[0m\n")
  | meaningless {fault : MeaningFault} :
      Complains text (.meaning fault)
        (bytes "\x1b[31m\x1b[1m✗ Ошибка: \x1b[0m\x1b[31mнедопустимое значение в \"" ++ text ++
          bytes "\": " ++ untilNul fault.message ++ bytes "\x1b[0m\n")
  | failed {fault : EvaluationFault} :
      Complains text (.evaluation fault)
        (bytes "\x1b[31m\x1b[1m✗ Ошибка: \x1b[0m\x1b[31mвычисление \"" ++ text ++
          bytes "\": " ++ untilNul fault.message ++ bytes "\x1b[0m\n")

/-- How a run ends that rolls a text once: the exit code and what is printed, for each answer of the
roll. -/
inductive EndsOnce (verbose : Bool) (text : Bytes) :
    Except (Fault DrawFault) Outcome → UInt32 × Output → Prop where
  | reported {outcome : Outcome} {report : Bytes} : verbose = true → outcome.report = .ok report →
      EndsOnce verbose text (.ok outcome) (0, { out := report, err := [] })
  | valued {outcome : Outcome} : verbose = false →
      EndsOnce verbose text (.ok outcome)
        (0, { out := bytes "\x1b[32m" ++ outcome.value.format ++ bytes "\x1b[0m\n", err := [] })
  | refused {fault : Fault DrawFault} {line : Bytes} : Complains text fault line →
      EndsOnce verbose text (.error fault) (1, { out := [], err := line })

/-- What is printed for a roll of a dialogue, between the question for it and the next one. -/
inductive Shows (text : Bytes) : Except (Fault DrawFault) Outcome → Output → Prop where
  | finished {outcome : Outcome} {report : Bytes} : outcome.report = .ok report →
      Shows text (.ok outcome) { out := bytes "\n" ++ report ++ bytes "\n", err := [] }
  | refused {fault : Fault DrawFault} {line : Bytes} : Complains text fault line →
      Shows text (.error fault) { out := bytes "\n\n", err := line }

end DiceFormula.CommandLine
