import DiceFormula.Expr.Basic

/-!
# Faults

Everything that can go wrong, by cause, and the one place where causes are put into words.
-/

namespace DiceFormula

/-- Why a text is not a formula. The first three are found among the bytes, the others among the
tokens. -/
inductive Complaint where
  | illegalByte (byte : UInt8)
  | unknownWord
  | missingAmount
  | unexpectedEnd
  | unexpectedToken (text : Bytes)
  | unclosedParen
  | trailingText
  deriving DecidableEq, Repr

/-- A complaint about a text, with the position it is about. -/
structure ReadingFault where
  complaint : Complaint
  position : Nat
  deriving DecidableEq, Repr

/-- Why a phrase, or the parts of an expression, have no meaning. -/
inductive MeaningFault where
  -- Phrases of the wrong shape.
  | emptySequence
  | malformedTree (position : Nat)
  | countNotInteger
  | unknownOperator (text : Bytes)
  | strayDirective (text : Bytes)
  | malformedRoll (text : Bytes)
  | severalDirectives (pool : Bytes)
  | malformedDirective (text : Bytes)
  | unknownDirective (letters : Bytes)
  | malformedNumber (text : Bytes)
  | numberTooLarge (text : Bytes)
  -- Parts that do not go together.
  | diceNotPositive (count : Int)
  | tooManyDice (count : Int)
  | sidesNotPositive (sides : Int)
  | selectionWithoutDice
  | amountNotPositive (selector : Selector)
  | amountExceedsDice (selector : Selector) (amount : Int) (pool : Bytes)
  | missingOperand
  | listOperand (text : Bytes)
  | repetitionsNotPositive (count : Int)
  | tooManyRepetitions (count : Int)
  | unrepeatable
  | tooMuchWork (text : Bytes)
  | tooFewItems
  | nestedSequence
  deriving DecidableEq, Repr

inductive EvaluationFault where
  | overflowAdding (left right : Int)
  | overflowSubtracting (left right : Int)
  | overflowMultiplying (left right : Int)
  | overflowDividing
  | divisionByZero
  deriving DecidableEq, Repr

inductive SourceFault where
  | exhausted
  | emptyRange
  deriving DecidableEq, Repr

/-- A result was asked for something that it does not have. -/
inductive AccessFault where
  | listAsNumber
  | numberAsList
  | traceOfList
  deriving DecidableEq, Repr

/-- Why a command line or an answer of the user cannot be used. -/
inductive InputFault where
  | missingSeed
  | badSeed (text : Bytes)
  | endOfInput
  deriving DecidableEq, Repr

/-- Any fault. A source of draws may fail in ways of its own, so these are left open. -/
inductive Fault (ε : Type := SourceFault) where
  | reading (fault : ReadingFault)
  | meaning (fault : MeaningFault)
  | evaluation (fault : EvaluationFault)
  | source (fault : ε)
  | access (fault : AccessFault)
  | input (fault : InputFault)
  deriving DecidableEq, Repr

/-- A fault that has nothing to do with a source. -/
abbrev OwnFault := Fault Empty

namespace Fault

variable {ε δ : Type}

def mapSource (f : ε → δ) : Fault ε → Fault δ
  | reading fault => .reading fault
  | meaning fault => .meaning fault
  | evaluation fault => .evaluation fault
  | source fault => .source (f fault)
  | access fault => .access fault
  | input fault => .input fault

/-- A fault of one's own is one beside those of any source. -/
def ofOwn : OwnFault → Fault ε :=
  mapSource Empty.elim

instance : Coe OwnFault (Fault ε) where
  coe := ofOwn

end Fault

/-! ## Limits -/

def maxDice : Int := 10000

def maxRepetitions : Int := 1000

/-- The most dice and constants that one list or sequence may come to. -/
def maxWork : Int := 100000

/-! ## Words -/

def quoted (text : Bytes) : Bytes :=
  bytes "'" ++ text ++ bytes "'"

namespace Complaint

def message : Complaint → Bytes
  | illegalByte byte => bytes "Недопустимый символ " ++ quoted [byte]
  | unknownWord => bytes "Неизвестное слово в выражении"
  | missingAmount => bytes "Ожидалось количество кубиков после модификатора"
  | unexpectedEnd => bytes "Неожиданный конец выражения"
  | unexpectedToken text => bytes "Неожиданный токен " ++ quoted text
  | unclosedParen => bytes "Ожидалась закрывающая скобка"
  | trailingText => bytes "Неожиданный хвост выражения"

end Complaint

namespace ReadingFault

/-- The complaint, and its position behind it. -/
def message (fault : ReadingFault) : Bytes :=
  fault.complaint.message ++ bytes " (позиция " ++ Decimal.ofNat fault.position ++ bytes ")"

end ReadingFault

namespace MeaningFault

def message : MeaningFault → Bytes
  | emptySequence => bytes "Пустая последовательность выражений"
  | malformedTree position =>
      bytes "Некорректное дерево разбора возле позиции " ++ Decimal.ofNat position
  | countNotInteger => bytes "Количество повторов должно быть целым числом"
  | unknownOperator text => bytes "Неизвестная бинарная операция " ++ quoted text
  | strayDirective text => bytes "Модификатор " ++ quoted text ++ bytes " без броска кубиков"
  | malformedRoll text => bytes "Некорректная запись броска " ++ quoted text
  | severalDirectives pool =>
      bytes "К броску " ++ pool ++ bytes " можно применить только один модификатор"
  | malformedDirective text => bytes "Некорректный модификатор " ++ quoted text
  | unknownDirective letters => bytes "Неизвестный модификатор " ++ quoted letters
  | malformedNumber text => bytes "Некорректное число " ++ quoted text
  | numberTooLarge text => bytes "Слишком большое число " ++ quoted text
  | diceNotPositive count =>
      bytes "Количество кубиков должно быть положительным, получено " ++ Decimal.ofInt count
  | tooManyDice count =>
      bytes "Слишком много кубиков: " ++ Decimal.ofInt count ++ bytes " (не больше " ++
        Decimal.ofInt maxDice ++ bytes ")"
  | sidesNotPositive sides =>
      bytes "Количество граней должно быть положительным, получено " ++ Decimal.ofInt sides
  | selectionWithoutDice => bytes "Модификатор применим только к броску кубиков"
  | amountNotPositive selector =>
      bytes "Модификатор " ++ selector.letters ++
        bytes " требует положительного количества кубиков"
  | amountExceedsDice selector amount pool =>
      bytes "Модификатор " ++ selector.letters ++ Decimal.ofInt amount ++
        bytes " превышает число кубиков в броске " ++ pool
  | missingOperand => bytes "У бинарной операции должны быть оба операнда"
  | listOperand text => bytes "Список нельзя использовать в арифметике: " ++ text
  | repetitionsNotPositive count =>
      bytes "Количество повторов должно быть положительным, получено " ++ Decimal.ofInt count
  | tooManyRepetitions count => bytes "Слишком много повторов: " ++ Decimal.ofInt count
  | unrepeatable => bytes "Повторять можно только выражение или список"
  | tooMuchWork text =>
      bytes "Слишком большой объём бросков в " ++ text ++ bytes " (не больше " ++
        Decimal.ofInt maxWork ++ bytes " кубиков и значений)"
  | tooFewItems => bytes "Последовательность должна содержать хотя бы два выражения"
  | nestedSequence => bytes "Последовательности не могут быть вложенными"

end MeaningFault

namespace EvaluationFault

def message : EvaluationFault → Bytes
  | overflowAdding left right =>
      bytes "Переполнение при сложении " ++ Decimal.ofInt left ++ bytes " + " ++
        Decimal.ofInt right
  | overflowSubtracting left right =>
      bytes "Переполнение при вычитании " ++ Decimal.ofInt left ++ bytes " - " ++
        Decimal.ofInt right
  | overflowMultiplying left right =>
      bytes "Переполнение при умножении " ++ Decimal.ofInt left ++ bytes " * " ++
        Decimal.ofInt right
  | overflowDividing => bytes "Переполнение при делении"
  | divisionByZero => bytes "Деление на ноль"

end EvaluationFault

namespace SourceFault

def message : SourceFault → Bytes
  | exhausted => bytes "Scripted random source exhausted"
  | emptyRange => bytes "Пустой диапазон случайных чисел"

end SourceFault

namespace AccessFault

def message : AccessFault → Bytes
  | listAsNumber => bytes "Значение является списком, а не числом"
  | numberAsList => bytes "Значение является числом, а не списком"
  | traceOfList => bytes "Однострочная запись доступна только для числовых результатов"

end AccessFault

namespace InputFault

def message : InputFault → Bytes
  | missingSeed => bytes "После --seed ожидалось число"
  | badSeed text => bytes "Некорректное значение зерна: " ++ text
  | endOfInput => bytes "Ввод завершён"

end InputFault

namespace Fault

/-- The whole wording of a fault. -/
def message : Fault → Bytes
  | reading fault => fault.message
  | meaning fault => fault.message
  | evaluation fault => fault.message
  | source fault => fault.message
  | access fault => fault.message
  | input fault => fault.message

/-- The wording as it is shown: it ends before the first NUL byte of a quoted text. -/
def shown (fault : Fault) : Bytes :=
  untilNul fault.message

end Fault

end DiceFormula
