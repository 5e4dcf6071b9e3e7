import DiceFormula.Proofs.Acceptance
import DiceFormula.Proofs.Joining

/-!
# Moved tokens

What tokens mean does not depend on where they stand, nor on a gap in front of the first of them:
the grammar derives a phrase of the same meaning at any other place.
-/

namespace DiceFormula

/-! ## 1. Tokens at another place -/

/-- Tokens at another place, where the first of them may have got a gap or lost it. -/
inductive Moved : List Token → List Token → Prop where
  | nil : Moved [] []
  | cons {first other : Token} {rest others : List Token} : other.kind = first.kind →
      other.text = first.text → Alike rest others → Moved (first :: rest) (other :: others)

theorem fields_of_unplaced {token other : Token} (h : token.unplaced = other.unplaced) :
    other.kind = token.kind ∧ other.text = token.text ∧ other.spaced = token.spaced := by
  rw [Token.unplaced, Token.unplaced, Token.mk.injEq] at h
  exact ⟨h.1.symm, h.2.1.symm, h.2.2.2.symm⟩

theorem alike_cons {token : Token} {tokens others : List Token} (h : Alike (token :: tokens) others) :
    ∃ other rest, others = other :: rest ∧ token.unplaced = other.unplaced ∧ Alike tokens rest := by
  obtain ⟨other, rest, rfl, hhead, htail⟩ := List.map_eq_cons_iff.mp (Eq.symm h)
  exact ⟨other, rest, rfl, hhead.symm, Eq.symm htail⟩

theorem alike_append {front back others : List Token} (h : Alike (front ++ back) others) :
    ∃ left right, others = left ++ right ∧ Alike front left ∧ Alike back right := by
  rw [Alike, List.map_append] at h
  obtain ⟨left, right, rfl, hleft, hright⟩ := List.map_eq_append_iff.mp (Eq.symm h)
  exact ⟨left, right, rfl, Eq.symm hleft, Eq.symm hright⟩

theorem moved_of_alike {tokens others : List Token} (h : Alike tokens others) : Moved tokens others := by
  cases tokens with
  | nil =>
    obtain rfl := List.map_eq_nil_iff.mp (Eq.symm h)
    exact .nil
  | cons token tokens =>
    obtain ⟨other, rest, rfl, hhead, htail⟩ := alike_cons h
    obtain ⟨hkind, htext, -⟩ := fields_of_unplaced hhead
    exact .cons hkind htext htail

/-- Behind an operator the gaps are left as they are, those in front of it included. -/
theorem moved_append {left right others : List Token} {operator : Token} (hne : left ≠ [])
    (h : Moved (left ++ operator :: right) others) :
    ∃ left' operator' right', others = left' ++ operator' :: right' ∧ Moved left left' ∧
      operator'.kind = operator.kind ∧ operator'.text = operator.text ∧ Moved right right' := by
  obtain ⟨first, rest, rfl⟩ := List.exists_cons_of_ne_nil hne
  cases h with
  | cons hkind htext hrest =>
    obtain ⟨rest', back, rfl, hrest', hback⟩ := alike_append hrest
    obtain ⟨operator', right', rfl, hoperator, hright⟩ := alike_cons hback
    obtain ⟨hkind', htext', -⟩ := fields_of_unplaced hoperator
    exact ⟨_ :: rest', operator', right', rfl, .cons hkind htext hrest', hkind', htext',
      moved_of_alike hright⟩

namespace Expr

open Grammar

/-! ## 2. The first token of an operand -/

/-- The tokens begin with a number, a roll, an opening parenthesis or a sign. -/
def Begins (tokens : List Token) : Prop :=
  ∃ first rest, tokens = first :: rest ∧
    ((first.kind = .number ∨ first.kind = .roll ∨ first.kind = .openParen) ∨ first.kind = .minus)

theorem Begins.ne_nil {tokens : List Token} (h : Begins tokens) : tokens ≠ [] := by
  obtain ⟨first, rest, rfl, -⟩ := h
  exact List.cons_ne_nil first rest

theorem Begins.append {tokens : List Token} (h : Begins tokens) (others : List Token) :
    Begins (tokens ++ others) := by
  obtain ⟨first, rest, rfl, hfirst⟩ := h
  exact ⟨first, rest ++ others, rfl, hfirst⟩

theorem begins_of_isFactor {tokens : List Token} {factor : Phrase} (h : IsFactor tokens factor) :
    Begins tokens := by
  cases h with
  | roll hroll => exact ⟨_, _, rfl, .inl (.inr (.inl hroll))⟩
  | number hnumber => exact ⟨_, _, rfl, .inl (.inl hnumber)⟩
  | signed hsign => exact ⟨_, _, rfl, .inr hsign⟩
  | group hopening => exact ⟨_, _, rfl, .inl (.inr (.inr hopening))⟩

theorem begins_of_isTerm {tokens : List Token} {term : Phrase} (h : IsTerm tokens term) :
    Begins tokens := by
  cases h with
  | factor hfactor => exact begins_of_isFactor hfactor
  | product hleft _ _ => exact (begins_of_isTerm hleft).append _

theorem begins_of_isSum {tokens : List Token} {sum : Phrase} (h : IsSum tokens sum) :
    Begins tokens := by
  cases h with
  | term hterm => exact begins_of_isTerm hterm
  | sum hleft _ _ => exact (begins_of_isSum hleft).append _

theorem begins_of_isList {tokens : List Token} {list : Phrase} (h : IsList tokens list) :
    Begins tokens := by
  cases h with
  | body hsum => exact begins_of_isSum hsum
  | repeated hcount => exact ⟨_, _, rfl, .inl (.inl hcount)⟩

/-! ## 3. Operands -/

theorem directives_of_alike {directives others : List Token} (h : Alike directives others)
    (hdirectives : ∀ d ∈ directives, d.kind = .directive) : ∀ d ∈ others, d.kind = .directive := by
  intro other hother
  have hmem : other.unplaced ∈ directives.map Token.unplaced := by
    rw [h]
    exact List.mem_map_of_mem hother
  obtain ⟨d, hd, heq⟩ := List.mem_map.mp hmem
  exact (fields_of_unplaced heq).1.trans (hdirectives d hd)

theorem withDirectives_of_alike {directives others : List Token} (h : Alike directives others)
    (pool : Expr) :
    withDirectives pool (others.map fun d => .node .directive d.text d.position []) =
      withDirectives pool (directives.map fun d => .node .directive d.text d.position []) := by
  match directives with
  | [] =>
    obtain rfl := List.map_eq_nil_iff.mp (Eq.symm h)
    rfl
  | [d] =>
    obtain ⟨other, rest, rfl, hother, hrest⟩ := alike_cons h
    obtain rfl := List.map_eq_nil_iff.mp (Eq.symm hrest)
    rw [List.map_singleton, List.map_singleton, (fields_of_unplaced hother).2.1]
    rfl
  | _ :: _ :: _ =>
    obtain ⟨other, rest, rfl, -, hrest⟩ := alike_cons h
    obtain ⟨next, rest, rfl, -, -⟩ := alike_cons hrest
    rfl

-- The meaning of a phrase depends on its rule, its text and the meanings of its parts.
theorem ofPhrase_operation_congr {operator operator' : Token} {left left' right right' : Phrase}
    (htext : operator'.text = operator.text) (hleft : ofPhrase left' = ofPhrase left)
    (hright : ofPhrase right' = ofPhrase right) :
    ofPhrase (operation operator' left' right') = ofPhrase (operation operator left right) := by
  unfold operation
  rw [ofPhrase, ofPhrase, hleft, hright, htext]

theorem ofPhrase_repetition (text number : Bytes) (position place : Nat) (list : Phrase) :
    ofPhrase (.node .list text position [.node .integer number place [], list]) =
      readNumber number >>= fun n => ofPhrase list >>= fun body => Build.repeated n (some body) := by
  rw [ofPhrase]
  simp only [Phrase.rule, Phrase.text, ne_eq, not_true_eq_false, if_false]

theorem ofPhrase_integer_congr {text : Bytes} {position position' : Nat} :
    ofPhrase (.node .integer text position' []) = ofPhrase (.node .integer text position []) := by
  rw [ofPhrase, ofPhrase]

mutual

theorem factor_of_moved {tokens others : List Token} {factor : Phrase} (h : IsFactor tokens factor)
    (hmoved : Moved tokens others) :
    ∃ factor', IsFactor others factor' ∧ ofPhrase factor' = ofPhrase factor :=
  match h, hmoved with
  | @IsFactor.roll first directives hfirst hdirectives, .cons hkind htext hrest => by
    refine ⟨_, .roll (hkind.trans hfirst) (directives_of_alike hrest hdirectives), ?_⟩
    rw [ofPhrase, ofPhrase, htext]
    simp only [withDirectives_of_alike hrest]
  | @IsFactor.number number hnumber, .cons hkind htext hrest => by
    obtain rfl := List.map_eq_nil_iff.mp (Eq.symm hrest)
    refine ⟨_, .number (hkind.trans hnumber), ?_⟩
    rw [htext]
    exact ofPhrase_integer_congr
  | @IsFactor.signed sign number hsign hnumber hspaced, .cons hkind htext hrest => by
    obtain ⟨number', rest, rfl, hnumber', hnil⟩ := alike_cons hrest
    obtain rfl := List.map_eq_nil_iff.mp (Eq.symm hnil)
    obtain ⟨hkind', htext', hspaced'⟩ := fields_of_unplaced hnumber'
    refine ⟨_, .signed (hkind.trans hsign) (hkind'.trans hnumber) (hspaced'.trans hspaced), ?_⟩
    rw [htext']
    exact ofPhrase_integer_congr
  | @IsFactor.group opening closing _ _ hopening hclosing hsum, .cons hkind htext hrest => by
    obtain ⟨inner', back, rfl, hinner, hback⟩ := alike_append hrest
    obtain ⟨closing', rest, rfl, hclosing', hnil⟩ := alike_cons hback
    obtain rfl := List.map_eq_nil_iff.mp (Eq.symm hnil)
    obtain ⟨sum', hsum', hmeaning⟩ := sum_of_moved hsum (moved_of_alike hinner)
    refine ⟨_, .group (hkind.trans hopening)
      ((fields_of_unplaced hclosing').1.trans hclosing) hsum', ?_⟩
    rw [ofPhrase, ofPhrase, hmeaning]

theorem term_of_moved {tokens others : List Token} {term : Phrase} (h : IsTerm tokens term)
    (hmoved : Moved tokens others) :
    ∃ term', IsTerm others term' ∧ ofPhrase term' = ofPhrase term :=
  match h with
  | .factor hfactor => by
    obtain ⟨factor', hfactor', hmeaning⟩ := factor_of_moved hfactor hmoved
    exact ⟨factor', .factor hfactor', hmeaning⟩
  | .product hleft hoperator hright => by
    obtain ⟨_, _, _, rfl, hl, hkind, htext, hr⟩ := moved_append (begins_of_isTerm hleft).ne_nil hmoved
    obtain ⟨_, hleft', hmeaningLeft⟩ := term_of_moved hleft hl
    obtain ⟨_, hright', hmeaningRight⟩ := factor_of_moved hright hr
    rw [← hkind] at hoperator
    exact ⟨_, .product hleft' hoperator hright',
      ofPhrase_operation_congr htext hmeaningLeft hmeaningRight⟩

theorem sum_of_moved {tokens others : List Token} {sum : Phrase} (h : IsSum tokens sum)
    (hmoved : Moved tokens others) :
    ∃ sum', IsSum others sum' ∧ ofPhrase sum' = ofPhrase sum :=
  match h with
  | .term hterm => by
    obtain ⟨term', hterm', hmeaning⟩ := term_of_moved hterm hmoved
    exact ⟨term', .term hterm', hmeaning⟩
  | .sum hleft hoperator hright => by
    obtain ⟨_, _, _, rfl, hl, hkind, htext, hr⟩ := moved_append (begins_of_isSum hleft).ne_nil hmoved
    obtain ⟨_, hleft', hmeaningLeft⟩ := sum_of_moved hleft hl
    obtain ⟨_, hright', hmeaningRight⟩ := term_of_moved hright hr
    rw [← hkind] at hoperator
    exact ⟨_, .sum hleft' hoperator hright',
      ofPhrase_operation_congr htext hmeaningLeft hmeaningRight⟩

end

/-! ## 4. Lists -/

theorem list_of_moved {tokens others : List Token} {list : Phrase} (h : IsList tokens list)
    (hmoved : Moved tokens others) :
    ∃ list', IsList others list' ∧ ofPhrase list' = ofPhrase list := by
  induction h generalizing others with
  | @body first rest sum hsum =>
    obtain ⟨sum', hsum', hmeaning⟩ := sum_of_moved hsum hmoved
    obtain ⟨first', rest', rfl, -⟩ := begins_of_isSum hsum'
    refine ⟨_, .body hsum', ?_⟩
    rw [ofPhrase_list_singleton, ofPhrase_list_singleton, hmeaning]
  | @repeated count first rest list hcount hspaced hbegins hlist ih =>
    cases hmoved with
    | cons hkind htext hrest =>
      obtain ⟨list', hlist', hmeaning⟩ := ih (moved_of_alike hrest)
      obtain ⟨first', rest', rfl, hfirst', -⟩ := alike_cons hrest
      obtain ⟨hkind', -, hspaced'⟩ := fields_of_unplaced hfirst'
      refine ⟨_, .repeated (hkind.trans hcount) (hspaced'.trans hspaced)
        (by rwa [hkind']) hlist', ?_⟩
      rw [ofPhrase_repetition, ofPhrase_repetition, hmeaning, htext]

theorem lists_of_alike {tokens others : List Token} {lists : List Phrase}
    (h : AreLists tokens lists) (halike : Alike tokens others) :
    ∃ lists', AreLists others lists' ∧ ofPhrases lists' = ofPhrases lists := by
  induction h generalizing others with
  | single hlist =>
    obtain ⟨list', hlist', hmeaning⟩ := list_of_moved hlist (moved_of_alike halike)
    refine ⟨_, .single hlist', ?_⟩
    rw [ofPhrases_cons, ofPhrases_cons, hmeaning]
  | more hlist hcomma _ ih =>
    obtain ⟨front, back, rfl, hfront, hback⟩ := alike_append halike
    obtain ⟨comma', rest, rfl, hcomma', hrest⟩ := alike_cons hback
    obtain ⟨list', hlist', hmeaning⟩ := list_of_moved hlist (moved_of_alike hfront)
    obtain ⟨lists', hlists', hmeanings⟩ := ih hrest
    refine ⟨_, .more hlist' ((fields_of_unplaced hcomma').1.trans hcomma) hlists', ?_⟩
    rw [ofPhrases_cons, ofPhrases_cons, hmeaning, hmeanings]

end Expr

end DiceFormula
