import DiceFormula.Proofs.Relabel
import DiceFormula.Proofs.Resumption
import Mathlib.Tactic.IntervalCases

/-!
# Where gaps matter

Of all the gaps between tokens, only those behind a number and in front of an operand, and those
between a minus sign and a number, have a part in what is read. All others, and all positions, may
be changed without changing more of the answer than the positions in it.
-/

namespace DiceFormula.Reader

/-- Tokens of the same kinds and texts, with the same gaps wherever gaps matter. -/
structure Agree (tokens others : List Token) : Prop where
  length : others.length = tokens.length
  same : ∀ (i : Nat) (token other : Token), tokens[i]? = some token → others[i]? = some other →
    other.kind = token.kind ∧ other.text = token.text
  gaps : ∀ (i : Nat) (previous token other : Token), tokens[i]? = some previous →
    tokens[i + 1]? = some token → others[i + 1]? = some other →
    gapMatters previous.kind token.kind = true → other.spaced = token.spaced

/-! ## 1. Tokens without positions -/

theorem Agree.tail {token other : Token} {tokens others : List Token}
    (h : Agree (token :: tokens) (other :: others)) : Agree tokens others where
  length := Nat.succ.inj h.length
  same i := h.same (i + 1)
  gaps i := h.gaps (i + 1)

/-- Tokens that agree are the same tokens but for positions and for gaps that do not matter. -/
theorem relabelledTokens_of_agree {previous : Kind} {tokens others : List Token}
    (h : Agree tokens others)
    (hfirst : ∀ token other : Token, tokens[0]? = some token → others[0]? = some other →
      gapMatters previous token.kind = true → other.spaced = token.spaced) :
    RelabelledTokens .unplaced previous others (tokens.map (Token.relabel .unplaced)) := by
  induction tokens generalizing previous others with
  | nil =>
    rw [List.length_eq_zero_iff.mp h.length]
    exact .nil
  | cons token tokens ih =>
    obtain ⟨other, others, rfl⟩ := List.exists_cons_of_length_eq_add_one h.length
    obtain ⟨hkind, htext⟩ := h.same 0 token other rfl rfl
    refine .cons ⟨hkind.symm, htext.symm, rfl⟩ (fun hgap => ?_) ?_
    · exact (hfirst token other rfl rfl (hkind ▸ hgap)).symm
    · exact ih h.tail fun next next' hnext hnext' hgap =>
        h.gaps 0 token next next' rfl hnext hnext' (hkind ▸ hgap)

/-! ## 2. The same answer -/

theorem Agree.map_kind {tokens others : List Token} (h : Agree tokens others) :
    others.map Token.kind = tokens.map Token.kind := by
  apply List.ext_getElem (by rw [List.length_map, List.length_map, h.length])
  intro i hothers htokens
  rw [List.length_map] at hothers htokens
  rw [List.getElem_map, List.getElem_map]
  exact (h.same i _ _ (List.getElem?_eq_getElem htokens) (List.getElem?_eq_getElem hothers)).1

theorem Agree.ended {tokens others : List Token} (h : Agree tokens others) (htokens : Ended tokens) :
    Ended others := by
  have hkinds := h.map_kind
  obtain ⟨front, mark, rfl, hfront, hmark⟩ := htokens
  rw [List.map_append] at hkinds
  obtain ⟨front', back', rfl, hfront', hback'⟩ := List.map_eq_append_iff.mp hkinds
  obtain ⟨mark', rfl, hmark'⟩ := List.map_eq_singleton_iff.mp hback'
  refine ⟨front', mark', rfl, fun token htoken => ?_, hmark'.trans hmark⟩
  obtain ⟨other, hother, hkind⟩ := List.mem_map.mp (hfront' ▸ List.mem_map_of_mem htoken)
  exact hkind ▸ hfront other hother

/-- The token that is complained about is the first one that is left. -/
theorem exists_culprit {tokens left : List Token} {fault : ReadingFault} (htokens : Ended tokens)
    (h : parse tokens = (.error fault, left)) :
    ∃ i culprit, tokens[i]? = some culprit ∧ left = tokens.drop i ∧
      fault.position = culprit.position := by
  obtain ⟨front, mark, rfl, hfront, hmark⟩ := htokens
  obtain ⟨answer, before, hstops, ⟨done, rfl⟩, hparse⟩ := parse_before_mark hfront hmark
  obtain ⟨rfl, rfl⟩ := Prod.mk.inj ((hparse []).symm.trans h)
  obtain ⟨culprit, rest, hculprit, hposition⟩ := hstops.refused fault rfl
  refine ⟨done.length, culprit, ?_, ?_, hposition⟩
  · rw [List.append_assoc, hculprit, List.getElem?_append_right (Nat.le_refl _), Nat.sub_self,
      List.getElem?_cons_zero]
  · rw [List.append_assoc, List.drop_left]

/-- Complaints that leave equally many tokens are about the tokens at the same place. -/
theorem Agree.refused {tokens others left left' : List Token} {fault fault' : ReadingFault}
    (h : Agree tokens others) (htokens : Ended tokens)
    (hparse : parse tokens = (.error fault, left)) (hparse' : parse others = (.error fault', left'))
    (hcomplaint : fault'.complaint = fault.complaint) (hlength : left'.length = left.length) :
    ∃ i token other, tokens[i]? = some token ∧ others[i]? = some other ∧
      parse tokens = (.error ⟨fault.complaint, token.position⟩, tokens.drop i) ∧
      parse others = (.error ⟨fault.complaint, other.position⟩, others.drop i) := by
  obtain ⟨i, culprit, hculprit, rfl, hposition⟩ := exists_culprit htokens hparse
  obtain ⟨i', culprit', hculprit', rfl, hposition'⟩ := exists_culprit (h.ended htokens) hparse'
  have hi : i' = i := by
    have hlt := (List.getElem?_eq_some_iff.mp hculprit).1
    have hlt' := (List.getElem?_eq_some_iff.mp hculprit').1
    have hsame := h.length
    simp only [List.length_drop] at hlength
    omega
  subst hi
  refine ⟨i', culprit, culprit', hculprit, hculprit', ?_, ?_⟩
  · rw [← hposition, hparse]
  · rw [← hposition', ← hcomplaint, hparse']

/-- Two lists of tokens that end with their only end mark and agree but for positions, and for gaps
that do not matter, are both read, as phrases that differ in their positions at most, or both
refused, with the same complaint about the token at the same place. -/
theorem parse_of_agree {tokens others : List Token} (htokens : Ended tokens) (h : Agree tokens others) :
    (∃ phrase other, (parse tokens).1 = .ok phrase ∧ (parse others).1 = .ok other ∧
      other.relabel .unplaced = phrase.relabel .unplaced) ∨
    ∃ complaint i token other, tokens[i]? = some token ∧ others[i]? = some other ∧
      parse tokens = (.error ⟨complaint, token.position⟩, tokens.drop i) ∧
      parse others = (.error ⟨complaint, other.position⟩, others.drop i) := by
  -- Both are read as the same tokens without positions are.
  obtain ⟨hanswer, hlength⟩ := parse_relabelled (relabelledTokens_map .comma tokens)
  have hothers : RelabelledTokens .unplaced .comma others (tokens.map (Token.relabel .unplaced)) :=
    relabelledTokens_of_agree h fun _ _ _ _ hgap => (nomatch hgap)
  obtain ⟨hanswer', hlength'⟩ := parse_relabelled hothers
  rw [hanswer] at hanswer'
  rw [hlength] at hlength'
  cases hparse : parse tokens with
  | mk answer left =>
    cases hparse' : parse others with
    | mk answer' left' =>
      rw [hparse, hparse'] at hanswer' hlength'
      cases answer with
      | ok phrase =>
        cases answer' with
        | error fault => exact nomatch hanswer'
        | ok other => exact .inl ⟨phrase, other, rfl, rfl, (Except.ok.inj hanswer').symm⟩
      | error fault =>
        cases answer' with
        | ok other => exact nomatch hanswer'
        | error fault' =>
          have hcomplaint := congrArg ReadingFault.complaint (Except.error.inj hanswer')
          simp only [ReadingFault.relabel, Complaint.relabel_unplaced] at hcomplaint
          rw [← hparse, ← hparse']
          exact .inr ⟨_, h.refused htokens hparse hparse' hcomplaint.symm hlength'.symm⟩

/-- The tokens of `2 (-1)`. -/
def narrow : List Token :=
  [⟨.number, bytes "2", 0, false⟩, ⟨.openParen, bytes "(", 2, true⟩, ⟨.minus, bytes "-", 3, false⟩,
    ⟨.number, bytes "1", 4, false⟩, ⟨.closeParen, bytes ")", 5, false⟩, .endMark 6]

/-- The tokens of `2 ( -1 )` between two blanks. -/
def wide : List Token :=
  [⟨.number, bytes "2", 1, true⟩, ⟨.openParen, bytes "(", 3, true⟩, ⟨.minus, bytes "-", 5, true⟩,
    ⟨.number, bytes "1", 6, false⟩, ⟨.closeParen, bytes ")", 8, true⟩, .endMark 10]

/-- A list is repeated in both cases, since the gap behind the count is there and the gap behind the
sign is not. -/
theorem parse_of_agree_narrow_wide :
    Ended narrow ∧ Agree narrow wide ∧ ∃ phrase other, (parse narrow).1 = .ok phrase ∧
      (parse wide).1 = .ok other ∧ other.relabel .unplaced = phrase.relabel .unplaced := by
  have hended : Ended narrow := ⟨narrow.take 5, Token.endMark 6, rfl, by decide, rfl⟩
  have hagree : Agree narrow wide := by
    refine ⟨rfl, fun i token other h h' => ?_, fun i previous token other h h' h'' hgap => ?_⟩
    · have hi : i < 6 := (List.getElem?_eq_some_iff.mp h).1
      interval_cases i <;> cases h <;> cases h' <;> exact ⟨rfl, rfl⟩
    · have hi : i < 5 := Nat.succ_lt_succ_iff.mp (List.getElem?_eq_some_iff.mp h').1
      -- Only the first pair and the third one are pairs between which a gap matters.
      interval_cases i <;> cases h <;> cases h' <;> cases h''
      · rfl
      · exact nomatch hgap
      · rfl
      · exact nomatch hgap
      · exact nomatch hgap
  refine ⟨hended, hagree, ?_⟩
  obtain hread | ⟨complaint, i, token, other, -, -, hrefused, -⟩ := parse_of_agree hended hagree
  · exact hread
  · exact nomatch congrArg Prod.fst hrefused

end DiceFormula.Reader
