import DiceFormula.CommandLine.Output
import DiceFormula.Proofs.Traces

/-!
# Printed values

The printed form of a value can be split off the front of any text in which no digit follows it. So
values with one printed form are one value, and the line that a short run prints tells the value of
its roll.
-/

namespace DiceFormula

namespace Value

theorem format_number (i : Int) : (number i).format = Decimal.ofInt i := rfl

/-- The items of a list, between its brackets. -/
theorem format_list_append (items : List Value) (rest : Bytes) :
    (list items).format ++ rest =
      ascii '[' :: (joinWith (bytes ", ") (items.map format) ++ ascii ']' :: rest) := by
  rw [format, formats_eq_map, List.append_assoc, List.append_assoc]
  rfl

theorem format_append_ne_close (v : Value) (rest rest' : Bytes) :
    v.format ++ rest ≠ ascii ']' :: rest' := by
  cases v with
  | number i => exact ofInt_append_ne_cons (by decide) i rest rest'
  | list items =>
    rw [format_list_append]
    intro h
    exact absurd (List.cons.inj h).1 (by decide)

theorem format_number_append_ne (i : Int) (items : List Value) (rest rest' : Bytes) :
    (number i).format ++ rest ≠ (list items).format ++ rest' := by
  rw [format_number, format_list_append]
  exact ofInt_append_ne_cons (by decide) i rest _

-- By induction on the value: its items are told apart one by one, and the bracket behind the last one
-- ends them.
theorem toldApart_format (v : Value) : ToldApart format v := by
  induction v with
  | number i =>
    intro w rest rest' hrest hrest' h
    cases w with
    | number j =>
      obtain ⟨rfl, htail⟩ := Decimal.ofInt_append_inj hrest hrest' h
      exact ⟨rfl, htail⟩
    | list items => exact absurd h (format_number_append_ne i items rest rest')
  | list items ih =>
    intro w rest rest' hrest hrest' h
    cases w with
    | number j => exact absurd h.symm (format_number_append_ne j items rest' rest)
    | list items' =>
      rw [format_list_append, format_list_append] at h
      obtain ⟨rfl, htail⟩ := joinWith_append_inj ih format_append_ne_close (List.cons.inj h).2
      exact ⟨rfl, htail⟩

theorem format_injective : Function.Injective format := by
  intro v w h
  have hend : v.format ++ [] = w.format ++ [] := by rw [h]
  exact (toldApart_format v w [] [] rfl rfl hend).1

example : (list [list [], list [number (-1), number 2]]).format = bytes "[[], [-1, 2]]" := by cbv

end Value

namespace CommandLine

theorem printed_short (outcome : Outcome) :
    printed false outcome = .ok (green ++ outcome.value.format ++ plain ++ bytes "\n") := rfl

/-- One printed form stands for one value, whatever lists are nested in it, and one printed line for
one value of a roll. -/
theorem printed_tells_value :
    (∀ v w : Value, v.format = w.format ↔ v = w) ∧
      ∀ outcome outcome' : Outcome,
        printed false outcome = printed false outcome' ↔ outcome.value = outcome'.value := by
  have hformat : ∀ v w : Value, v.format = w.format ↔ v = w :=
    fun _ _ => Value.format_injective.eq_iff
  refine ⟨hformat, ?_⟩
  intro outcome outcome'
  rw [printed_short, printed_short, Except.ok.injEq, List.append_left_inj, List.append_left_inj,
    List.append_right_inj]
  exact hformat outcome.value outcome'.value

end CommandLine

end DiceFormula
