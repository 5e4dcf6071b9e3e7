import DiceFormula.CommandLine.Dialogue
import DiceFormula.CommandLine.Shown
import Mathlib.Data.List.Forall2

/-!
# Sessions

What a whole dialogue rolls and prints, told from all lines of its input at once.
-/

namespace DiceFormula.CommandLine

/-! ## Lines -/

/-- An input consists of lines, the last of which may end without a line feed. -/
structure AreLines (input : Bytes) (lines : List Bytes) : Prop where
  whole : ∀ line ∈ lines, ascii '\n' ∉ line
  joined : lines.flatMap (· ++ bytes "\n") = input ∨
    input ≠ [] ∧ input.getLast? ≠ some (ascii '\n') ∧
      lines.flatMap (· ++ bytes "\n") = input ++ bytes "\n"

def everyOther {α : Type} : List α → List α
  | [] => []
  | [item] => [item]
  | item :: _ :: rest => item :: everyOther rest

theorem getElem?_everyOther {α : Type} (items : List α) (i : Nat) :
    (everyOther items)[i]? = items[2 * i]? := by
  fun_induction everyOther items generalizing i with
  | case1 => rfl
  | case2 item => cases i <;> rfl
  | case3 item other rest ih =>
    cases i with
    | zero => rfl
    | succ i =>
      rw [List.getElem?_cons_succ, ih]
      rfl

/-! ## What is rolled -/

/-- A line asks for a roll: for the text between the spaces and tabs at its ends, and for one die
with twenty sides if there is none. -/
inductive AsksFor (line : Bytes) : Bytes → Prop where
  | spelled {before text after : Bytes} : line = before ++ text ++ after →
      (∀ b ∈ before ++ after, b = ascii ' ' ∨ b = ascii '\t') →
      (∀ b, text.head? = some b ∨ text.getLast? = some b → b ≠ ascii ' ' ∧ b ≠ ascii '\t') →
      text ≠ [] → AsksFor line text
  | usual : (∀ b ∈ line, b = ascii ' ' ∨ b = ascii '\t') → AsksFor line (bytes "1d20")

def textOf (line : Bytes) : Bytes :=
  if trim line = [] then bytes "1d20" else trim line

/-- A line asks for another roll: between the spaces and tabs at its ends is one of four words, in
which a Latin letter may be a capital. -/
def AsksAgain (line : Bytes) : Prop :=
  ∃ before word after, line = before ++ word ++ after ∧
    (∀ b ∈ before ++ after, b = ascii ' ' ∨ b = ascii '\t') ∧
      word.map lower ∈ [bytes "y", bytes "yes", bytes "д", bytes "да"]

/-- The number of lines in the places of answers that ask for another roll, up to the first one that
does not. -/
def assents (lines : List Bytes) : Nat :=
  ((everyOther lines.tail).takeWhile fun line => isAffirmative (some line)).length

/-- The lines that rolls are read from: the first, third, fifth line and so on, until an answer does
not ask for another roll. -/
def rollLines (lines : List Bytes) : List Bytes :=
  (everyOther lines).take (assents lines + 1)

def rolledTexts (lines : List Bytes) : List Bytes :=
  (rollLines lines).map textOf

/-- Texts with the answers of their rolls, each rolled with the generator that the one before has
left, whether it failed or not. -/
def rolledFrom (generator : Twister) :
    List Bytes → List (Bytes × Except (Fault DrawFault) Outcome)
  | [] => []
  | text :: rest =>
      let (answer, generator) := (roll Source.twister text).runFrom generator
      (text, answer) :: rolledFrom generator rest

/-! ## What is printed -/

def AllShow (rolled : List (Bytes × Except (Fault DrawFault) Outcome)) (shows : List Output) : Prop :=
  List.Forall₂ (fun roll output => Shows roll.1 roll.2 output) rolled shows

def Output.concat : List Output → Output
  | [] => {}
  | output :: rest => output ++ Output.concat rest

/-- The output of a session from the first question for a roll on, given what is printed for its
rolls and the number of assents. Where every answer was an assent, the input ends before the next
roll. -/
def transcript (shows : List Output) (assents : Nat) : Output :=
  .concat (shows.mapIdx fun i output =>
      .shown (bytes "\x1b[1mВведите бросок (Enter — 1d20): \x1b[0m") ++ output ++
        .shown (bytes "\x1b[1mБросить еще раз? (y/n): \x1b[0m") ++
        if i < assents then .shown (bytes "\n") else {}) ++
    (if shows.length = assents then
      { out := bytes "\x1b[1mВведите бросок (Enter — 1d20): \x1b[0m"
        err := bytes "\x1b[31m\x1b[1m✗ Ошибка: \x1b[0m\x1b[31mВвод завершён\x1b[0m\n" }
      else {}) ++
    .shown (bytes "\x1b[36mРабота завершена. До свидания!\x1b[0m\n\n")

def banner : Bytes :=
  bytes "\x1b[1m\x1b[36m" ++
    bytes "\n╔═══════════════════════════════════════════════════════════╗\n" ++
    bytes "║    Броски кубиков с разбором вычислений v1.0             ║\n" ++
    bytes "╚═══════════════════════════════════════════════════════════╝\n" ++
    bytes "\x1b[0m\n"

end DiceFormula.CommandLine
