import DiceFormula.Fault
import DiceFormula.Outcome.Report
import DiceFormula.Source

/-!
# The console

What the program prints, colours included, apart from the reports themselves.
-/

namespace DiceFormula.CommandLine

/-- What goes to standard output and to standard error. -/
structure Output where
  out : Bytes := []
  err : Bytes := []
  deriving DecidableEq, Repr, Inhabited

instance : Append Output where
  append a b := { out := a.out ++ b.out, err := a.err ++ b.err }

def Output.shown (text : Bytes) : Output :=
  { out := text }

/-! ## Colours -/

def plain : Bytes := bytes "\x1b[0m"
def bold : Bytes := bytes "\x1b[1m"
def red : Bytes := bytes "\x1b[31m"
def green : Bytes := bytes "\x1b[32m"
def cyan : Bytes := bytes "\x1b[36m"
def gray : Bytes := bytes "\x1b[90m"

/-! ## Fixed texts -/

/-- The roll that an empty line stands for. -/
def defaultRoll : Bytes := bytes "1d20"

def header : Bytes :=
  bold ++ cyan ++
    bytes "\n╔═══════════════════════════════════════════════════════════╗\n" ++
    bytes "║    Броски кубиков с разбором вычислений v1.0             ║\n" ++
    bytes "╚═══════════════════════════════════════════════════════════╝\n" ++
    plain ++ bytes "\n"

def rollPrompt : Bytes :=
  bold ++ bytes "Введите бросок (Enter — " ++ defaultRoll ++ bytes "): " ++ plain

def continuePrompt : Bytes :=
  bold ++ bytes "Бросить еще раз? (y/n): " ++ plain

def farewell : Bytes :=
  cyan ++ bytes "Работа завершена. До свидания!" ++ plain ++ bytes "\n\n"

def usage : Bytes :=
  gray ++ bytes "Использование: dice_roller [-v] [--seed N] [бросок...]" ++ plain ++ bytes "\n"

/-! ## Errors and results -/

def errorLine (message : Bytes) : Output :=
  { err := red ++ bold ++ bytes "✗ Ошибка: " ++ plain ++ red ++ message ++ plain ++ bytes "\n" }

def failedStage : Fault → Bytes
  | .reading _ => bytes "синтаксис броска"
  | .meaning _ => bytes "недопустимое значение в"
  | .evaluation _ => bytes "вычисление"
  | .source _ | .access _ | .input _ => bytes "бросок"

def rollError (roll : Bytes) (fault : Fault) : Output :=
  errorLine (failedStage fault ++ bytes " \"" ++ roll ++ bytes "\": " ++ fault.shown)

def valueLine (outcome : Outcome) : Bytes :=
  green ++ outcome.value.format ++ plain ++ bytes "\n"

/-- The printed form of an outcome: its report, or only its value. -/
def printed (verbose : Bool) (outcome : Outcome) : Except Fault Bytes :=
  if verbose then outcome.report.mapError .access else .ok (valueLine outcome)

end DiceFormula.CommandLine
