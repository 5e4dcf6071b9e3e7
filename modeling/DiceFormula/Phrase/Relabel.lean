import DiceFormula.Fault
import DiceFormula.Phrase
import DiceFormula.Token

/-!
# Relabelled phrases

A phrase, or a complaint about tokens, with other texts and other positions in the same places.
-/

namespace DiceFormula

/-- A new text for every text, and a new position for every position. A phrase has empty texts where
it has no token, and puts minus signs in front of texts itself, so both are left as they are. -/
structure Relabelling where
  text : Bytes → Bytes
  position : Nat → Nat
  text_nil : text [] = []
  text_signed : ∀ digits, text (ascii '-' :: digits) = ascii '-' :: text digits
  position_zero : position 0 = 0

namespace Relabelling

def unplaced : Relabelling where
  text := id
  position := fun _ => 0
  text_nil := rfl
  text_signed := fun _ => rfl
  position_zero := rfl

def lowered : Relabelling where
  text := List.map lower
  position := id
  text_nil := rfl
  text_signed := fun _ => rfl
  position_zero := rfl

end Relabelling

variable (r : Relabelling)

namespace Phrase

mutual

def relabel : Phrase → Phrase
  | .node rule text position parts =>
      .node rule (r.text text) (r.position position) (relabelAll parts)

def relabelAll : List Phrase → List Phrase
  | [] => []
  | part :: rest => part.relabel :: relabelAll rest

end

theorem relabelAll_eq_map (parts : List Phrase) : relabelAll r parts = parts.map (relabel r) := by
  induction parts with
  | nil => rfl
  | cons part parts ih => rw [relabelAll, ih, List.map_cons]

theorem relabel_node (rule : Rule) (text : Bytes) (position : Nat) (parts : List Phrase) :
    relabel r (.node rule text position parts) =
      .node rule (r.text text) (r.position position) (parts.map (relabel r)) := by
  rw [relabel, relabelAll_eq_map]

@[simp] theorem rule_relabel (phrase : Phrase) : (phrase.relabel r).rule = phrase.rule := by
  cases phrase
  rfl

end Phrase

/-- The gap in front of a token is left as it is. -/
def Token.relabel (token : Token) : Token :=
  { token with text := r.text token.text, position := r.position token.position }

/-- Only the complaint about a token quotes its text. -/
def Complaint.relabel : Complaint → Complaint
  | .unexpectedToken text => .unexpectedToken (r.text text)
  | complaint => complaint

def ReadingFault.relabel (fault : ReadingFault) : ReadingFault :=
  ⟨fault.complaint.relabel r, r.position fault.position⟩

theorem Complaint.relabel_unplaced (complaint : Complaint) :
    complaint.relabel .unplaced = complaint := by
  cases complaint <;> rfl

end DiceFormula
