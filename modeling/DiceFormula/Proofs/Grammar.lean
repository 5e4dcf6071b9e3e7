import DiceFormula.Proofs.Grammar.Completeness
import DiceFormula.Proofs.Grammar.Soundness

/-!
# The reader and the grammar

The reader accepts exactly the lists of tokens that the grammar derives, and its answer is the
phrase of the derivation. As the reader has one answer, the grammar is unambiguous.
-/

namespace DiceFormula.Reader

open Grammar

theorem isSequence_unique {tokens : List Token} {phrase other : Phrase}
    (h : IsSequence tokens phrase) (hother : IsSequence tokens other) : phrase = other := by
  have hmark : (Token.endMark 0).kind = .finish := rfl
  have hparse := (parse_of_isSequence hmark h).symm.trans (parse_of_isSequence hmark hother)
  exact Except.ok.inj (congrArg Prod.fst hparse)

/-- Tokens in front of an end mark are read as a phrase if and only if the grammar derives that
phrase from them; no other phrase is derived from them, and tokens that are not derived are
refused. -/
theorem parse_eq_ok_iff_isSequence {tokens : List Token} {mark : Token}
    (htokens : ∀ token ∈ tokens, token.kind ≠ .finish) (hmark : mark.kind = .finish) :
    (∀ phrase, (parse (tokens ++ [mark])).1 = .ok phrase ↔ IsSequence tokens phrase) ∧
      (∀ phrase other, IsSequence tokens phrase → IsSequence tokens other → phrase = other) ∧
      ((¬ ∃ phrase, IsSequence tokens phrase) →
        ∃ fault, (parse (tokens ++ [mark])).1 = .error fault) := by
  have hiff (phrase : Phrase) :
      (parse (tokens ++ [mark])).1 = .ok phrase ↔ IsSequence tokens phrase := by
    constructor
    · exact isSequence_of_parse htokens
    · intro h
      rw [parse_of_isSequence hmark h]
  refine ⟨hiff, fun phrase other => isSequence_unique, fun hnone => ?_⟩
  cases hanswer : (parse (tokens ++ [mark])).1 with
  | ok phrase => exact absurd ⟨phrase, (hiff phrase).mp hanswer⟩ hnone
  | error fault => exact ⟨fault, rfl⟩

/-- The tokens of `2 (1 - -3*4d6kh3dl1)`. -/
def twiceDifference : List Token :=
  [{ kind := .number, text := [50], position := 0 },
    { kind := .openParen, text := [40], position := 2, spaced := true },
    { kind := .number, text := [49], position := 3 },
    { kind := .minus, text := [45], position := 5, spaced := true },
    { kind := .minus, text := [45], position := 7, spaced := true },
    { kind := .number, text := [51], position := 8 },
    { kind := .star, text := [42], position := 9 },
    { kind := .roll, text := [52, 100, 54], position := 10 },
    { kind := .directive, text := [107, 104, 51], position := 13 },
    { kind := .directive, text := [100, 108, 49], position := 16 },
    { kind := .closeParen, text := [41], position := 19 }]

/-- Both a count and a number are digits, and both an operator and a sign are minus signs. A roll
may have several directives here. -/
theorem isSequence_twiceDifference :
    (∀ token ∈ twiceDifference, token.kind ≠ .finish) ∧ (Token.endMark 20).kind = .finish ∧
      IsSequence twiceDifference
        (.node .sequence [] 0 [.node .list [50] 0 [.node .integer [50] 0 [],
          .node .list [] 2 [.node .group [] 2 [.node .operation [45] 5 [.node .integer [49] 3 [],
            .node .operation [42] 9 [.node .integer [45, 51] 7 [],
              .node .roll [52, 100, 54] 10 [.node .directive [107, 104, 51] 13 [],
                .node .directive [100, 108, 49] 16 []]]]]]]]) :=
  have htokens : ∀ token ∈ twiceDifference, token.kind ≠ .finish := by decide
  ⟨htokens, rfl, ((parse_eq_ok_iff_isSequence htokens (rfl : (Token.endMark 20).kind = .finish)).1 _).mp
    rfl⟩

end DiceFormula.Reader
