import DiceFormula.Proofs.Moved
import DiceFormula.Proofs.Relabel

/-!
# Letter case

A text in lower case has the tokens of the text itself, in lower case and at the same positions, and
they mean the same. So texts that differ in the case of letters only mean the same, or are refused
alike.
-/

namespace DiceFormula

/-! ## 1. Bytes in lower case -/

theorem lower_lower : ∀ b : UInt8, lower (lower b) = lower b := by decide +kernel

theorem isBlank_lower : ∀ b : UInt8, isBlank (lower b) = isBlank b := by decide +kernel

theorem isDigit_lower : ∀ b : UInt8, isDigit (lower b) = isDigit b := by decide +kernel

theorem isLetter_lower : ∀ b : UInt8, isLetter (lower b) = isLetter b := by decide +kernel

theorem lower_of_not_isLetter : ∀ b : UInt8, isLetter b = false → lower b = b := by decide +kernel

theorem map_lower_map_lower (text : Bytes) : (text.map lower).map lower = text.map lower := by
  rw [List.map_map, show lower ∘ lower = lower from funext lower_lower]

theorem takeWhile_map_lower {p : UInt8 → Bool} (h : ∀ b, p (lower b) = p b) (text : Bytes) :
    (text.map lower).takeWhile p = (text.takeWhile p).map lower := by
  rw [List.takeWhile_map, show p ∘ lower = p from funext h]

theorem dropWhile_map_lower {p : UInt8 → Bool} (h : ∀ b, p (lower b) = p b) (text : Bytes) :
    (text.map lower).dropWhile p = (text.dropWhile p).map lower := by
  rw [List.dropWhile_map, show p ∘ lower = p from funext h]

namespace Lexer

theorem singleByte?_lower : ∀ b : UInt8, singleByte? (lower b) = singleByte? b := by decide +kernel

/-! ## 2. The first token -/

theorem digitCount_map_lower (text : Bytes) : digitCount (text.map lower) = digitCount text := by
  rw [digitCount, takeWhile_map_lower isDigit_lower, List.length_map, digitCount]

theorem sidesLength_map_lower (text : Bytes) : sidesLength (text.map lower) = sidesLength text := by
  match text with
  | [] | [_] => rfl
  | d :: b :: rest =>
    have hcount := digitCount_map_lower (b :: rest)
    simp only [List.map_cons] at hcount ⊢
    simp only [sidesLength, lower_lower, isDigit_lower, hcount]

theorem numberOrRoll_map_lower (text : Bytes) :
    numberOrRoll (text.map lower) = numberOrRoll text := by
  rw [numberOrRoll_eq, numberOrRoll_eq, digitCount_map_lower, ← List.map_drop, sidesLength_map_lower]

theorem isDirectiveStart_lower (first second : UInt8) :
    isDirectiveStart (lower first) (lower second) = isDirectiveStart first second := by
  rw [isDirectiveStart, lower_lower, lower_lower, isDirectiveStart]

theorem word_map_lower (text : Bytes) : word (text.map lower) = word text := by
  have hsides := sidesLength_map_lower text
  match text with
  | [] => rfl
  | [_] => rfl
  | first :: second :: rest =>
    simp only [List.map_cons] at hsides ⊢
    unfold word
    rw [hsides]
    cases sidesLength (first :: second :: rest) with
    | zero => simp only [isDirectiveStart_lower, digitCount_map_lower]
    | succ sides => rfl

/-- What stands in front of a text, and how far it is read, does not depend on the case of letters;
no complaint quotes a letter. -/
theorem first_map_lower (b : UInt8) (rest : Bytes) : first (lower b) (rest.map lower) = first b rest := by
  unfold first
  rw [singleByte?_lower, isDigit_lower, isLetter_lower, ← List.map_cons, numberOrRoll_map_lower,
    word_map_lower]
  cases hletter : isLetter b with
  | true => rfl
  | false => rw [lower_of_not_isLetter b hletter]

/-! ## 3. All tokens -/

theorem step_map_lower (position : Nat) (text : Bytes) :
    step position (text.map lower) =
      match step position text with
      | .blank stop => .blank stop
      | .token token rest => .token (token.relabel .lowered) (rest.map lower)
      | .fault fault rest => .fault fault (rest.map lower) := by
  unfold step
  rw [takeWhile_map_lower isBlank_lower, dropWhile_map_lower isBlank_lower, List.length_map]
  cases text.dropWhile isBlank with
  | nil => rfl
  | cons b rest =>
    simp only [List.map_cons]
    rw [first_map_lower]
    match first b rest with
    | (.ok kind, length) =>
      dsimp only
      rw [← List.map_cons, ← List.map_take, ← List.map_drop]
      rfl
    | (.error complaint, length) =>
      dsimp only
      rw [← List.map_cons, ← List.map_drop]

theorem scan_map_lower (position : Nat) (text : Bytes) :
    (scan position (text.map lower)).1 =
      (scan position text).1.map (List.map (Token.relabel .lowered)) := by
  induction position, text using scan.induct with
  | case1 position text stop hstep =>
    rw [scan_eq, step_map_lower, scan_eq position text, hstep]
    rfl
  | case2 position text fault rest hstep =>
    rw [scan_eq, step_map_lower, scan_eq position text, hstep]
    rfl
  | case3 position text token rest hstep _ _ _ _ ih =>
    rw [scan_eq, step_map_lower, scan_eq position text, hstep]
    dsimp only
    have hlength : (token.relabel .lowered).text.length = token.text.length := List.length_map _
    have hposition : (token.relabel .lowered).position = token.position := rfl
    rw [hlength, hposition, ih]
    cases (scan (token.position + token.text.length) rest).1 <;> rfl

end Lexer

/-! ## 4. Numbers, rolls and directives -/

namespace Expr

open Phrase Grammar

theorem map_lower_of_number {text : Bytes} (h : Lexeme .number text) : text.map lower = text := by
  cases h with
  | number _ hdigits => exact Decimal.map_lower_of_digits hdigits

theorem map_lower_of_operator {kind : Kind} {text : Bytes} (h : Lexeme kind text)
    (hkind : (kind = .star ∨ kind = .slash) ∨ kind = .plus ∨ kind = .minus) :
    text.map lower = text := by
  rcases hkind with (rfl | rfl) | rfl | rfl <;> cases h <;> rfl

/-- No part of a text is refused for its shape. -/
theorem isStructural_of_decides {α : Type} {attempt : Except MeaningFault α} {legal : Prop} {result : α}
    {fault : MeaningFault} (h : Decides attempt legal result) (hattempt : attempt = .error fault) :
    fault.isStructural = false := by
  cases h with
  | accepted _ hok => exact nomatch hattempt.symm.trans hok
  | refused _ herror hshape => rwa [Except.error.inj (hattempt.symm.trans herror)]

/-- Only a roll of the wrong shape would be quoted as it is written. -/
theorem ofRoll_map_lower {text : Bytes} (h : Lexeme .roll text) :
    ofRoll (text.map lower) = ofRoll text := by
  match hdrop : (text.map lower).dropWhile (· != ascii 'd') with
  | [] | [_] =>
    have herror : ofRoll text = .error (.malformedRoll text) := by
      unfold ofRoll
      simp only [hdrop]
    exact nomatch isStructural_of_decides (decides_ofRoll h) herror
  | letter :: b :: rest =>
    have hlower : ((text.map lower).map lower).dropWhile (· != ascii 'd') = letter :: b :: rest := by
      rw [map_lower_map_lower, hdrop]
    rw [ofRoll_of_split rfl hlower, ofRoll_of_split rfl hdrop, map_lower_map_lower]

/-- Only a directive that is too short would be quoted as it is written. -/
theorem ofDirective_relabel {text : Bytes} (h : Lexeme .directive text) (position : Nat)
    (pool : Expr) :
    ofDirective pool ((Phrase.node .directive text position []).relabel .lowered) =
      ofDirective pool (.node .directive text position []) := by
  have hlength : ¬ (text.map lower).length < 3 := by
    rw [List.length_map]
    cases h with
    | directive _ _ hne _ =>
      have hpos := List.length_pos_of_ne_nil hne
      rw [List.length_cons, List.length_cons]
      omega
  have htext : ((Phrase.node .directive text position []).relabel .lowered).text =
      text.map lower := rfl
  unfold ofDirective
  dsimp only
  rw [htext, map_lower_map_lower, Phrase.rule_relabel]
  simp only [Phrase.rule, Phrase.text, hlength, ne_eq, not_true_eq_false, or_self, if_false]

theorem withDirectives_relabel {directives : List Token}
    (h : ∀ d ∈ directives, Lexeme .directive d.text) (pool : Expr) :
    withDirectives pool ((directives.map fun d => .node .directive d.text d.position []).map
        (Phrase.relabel .lowered)) =
      withDirectives pool (directives.map fun d => .node .directive d.text d.position []) := by
  match directives with
  | [] => rfl
  | [d] => exact ofDirective_relabel (h d List.mem_cons_self) d.position pool
  | _ :: _ :: _ => rfl

/-! ## 5. Phrases of texts -/

theorem ofPhrase_integer_relabel {text : Bytes} (h : text.map lower = text) (position : Nat) :
    ofPhrase ((Phrase.node .integer text position []).relabel .lowered) =
      ofPhrase (.node .integer text position []) := by
  have htext : Relabelling.lowered.text text = text := h
  rw [Phrase.relabel_node, List.map_nil, htext]
  exact ofPhrase_integer_congr

theorem ofPhrase_operation_relabel {operator : Token} {left right : Phrase}
    (htext : Lexeme operator.kind operator.text)
    (hkind : (operator.kind = .star ∨ operator.kind = .slash) ∨
      operator.kind = .plus ∨ operator.kind = .minus)
    (hleft : ofPhrase (left.relabel .lowered) = ofPhrase left)
    (hright : ofPhrase (right.relabel .lowered) = ofPhrase right) :
    ofPhrase ((operation operator left right).relabel .lowered) =
      ofPhrase (operation operator left right) := by
  have hoperator : (operator.relabel .lowered).text = operator.text :=
    map_lower_of_operator htext hkind
  exact ofPhrase_operation_congr hoperator hleft hright

mutual

/-- The case of letters has no part in the meaning of a factor. -/
theorem ofPhrase_relabel_of_isFactor {tokens : List Token} {factor : Phrase}
    (h : IsFactor tokens factor) (hlexemes : AreLexemes tokens) :
    ofPhrase (factor.relabel .lowered) = ofPhrase factor :=
  match h with
  | @IsFactor.roll first directives hfirst hdirectives => by
    obtain ⟨htext, hrest⟩ := areLexemes_cons.mp hlexemes
    rw [hfirst] at htext
    have hall : ∀ d ∈ directives, Lexeme .directive d.text :=
      fun d hd => hdirectives d hd ▸ hrest d hd
    rw [Phrase.relabel_node, ofPhrase, ofPhrase]
    simp only [withDirectives_relabel hall]
    rw [← ofRoll_map_lower htext]
    rfl
  | @IsFactor.number number hnumber => by
    have htext := (areLexemes_cons.mp hlexemes).1
    rw [hnumber] at htext
    exact ofPhrase_integer_relabel (map_lower_of_number htext) number.position
  | @IsFactor.signed sign number hsign hnumber _ => by
    have htext := (areLexemes_cons.mp (areLexemes_cons.mp hlexemes).2).1
    rw [hnumber] at htext
    have hsigned : (ascii '-' :: number.text).map lower = ascii '-' :: number.text := by
      rw [List.map_cons, map_lower_of_number htext]
      rfl
    exact ofPhrase_integer_relabel hsigned sign.position
  | @IsFactor.group opening closing inner _ _ _ hsum => by
    have hinner := (areLexemes_append.mp (areLexemes_cons.mp hlexemes).2).1
    rw [Phrase.relabel_node, List.map_singleton, ofPhrase, ofPhrase]
    exact ofPhrase_relabel_of_isSum hsum hinner

theorem ofPhrase_relabel_of_isTerm {tokens : List Token} {term : Phrase} (h : IsTerm tokens term)
    (hlexemes : AreLexemes tokens) : ofPhrase (term.relabel .lowered) = ofPhrase term :=
  match h with
  | .factor hfactor => ofPhrase_relabel_of_isFactor hfactor hlexemes
  | .product hleft hoperator hright => by
    obtain ⟨hl, hrest⟩ := areLexemes_append.mp hlexemes
    obtain ⟨htext, hr⟩ := areLexemes_cons.mp hrest
    exact ofPhrase_operation_relabel htext (.inl hoperator) (ofPhrase_relabel_of_isTerm hleft hl)
      (ofPhrase_relabel_of_isFactor hright hr)

theorem ofPhrase_relabel_of_isSum {tokens : List Token} {sum : Phrase} (h : IsSum tokens sum)
    (hlexemes : AreLexemes tokens) : ofPhrase (sum.relabel .lowered) = ofPhrase sum :=
  match h with
  | .term hterm => ofPhrase_relabel_of_isTerm hterm hlexemes
  | .sum hleft hoperator hright => by
    obtain ⟨hl, hrest⟩ := areLexemes_append.mp hlexemes
    obtain ⟨htext, hr⟩ := areLexemes_cons.mp hrest
    exact ofPhrase_operation_relabel htext (.inr hoperator) (ofPhrase_relabel_of_isSum hleft hl)
      (ofPhrase_relabel_of_isTerm hright hr)

end

theorem ofPhrase_relabel_of_isList {tokens : List Token} {list : Phrase} (h : IsList tokens list)
    (hlexemes : AreLexemes tokens) : ofPhrase (list.relabel .lowered) = ofPhrase list := by
  induction h with
  | body hsum =>
    rw [Phrase.relabel_node, List.map_singleton, ofPhrase_list_singleton, ofPhrase_list_singleton]
    exact ofPhrase_relabel_of_isSum hsum hlexemes
  | @repeated count first rest list hcount _ _ _ ih =>
    obtain ⟨htext, hrest⟩ := areLexemes_cons.mp hlexemes
    rw [hcount] at htext
    have hnumber : Relabelling.lowered.text count.text = count.text := map_lower_of_number htext
    rw [Phrase.relabel_node, List.map_cons, List.map_singleton, Phrase.relabel_node, List.map_nil,
      hnumber, ofPhrase_repetition, ofPhrase_repetition, ih hrest]

theorem ofPhrase_relabel_of_areLists {tokens : List Token} {lists : List Phrase}
    (h : AreLists tokens lists) (hlexemes : AreLexemes tokens) :
    ∀ list ∈ lists, ofPhrase (list.relabel .lowered) = ofPhrase list := by
  induction h with
  | single hlist => exact List.forall_mem_singleton.mpr (ofPhrase_relabel_of_isList hlist hlexemes)
  | more hlist _ _ ih =>
    obtain ⟨hfirst, hrest⟩ := areLexemes_append.mp hlexemes
    exact List.forall_mem_cons.mpr
      ⟨ofPhrase_relabel_of_isList hlist hfirst, ih (areLexemes_cons.mp hrest).2⟩

theorem ofPhrases_map_congr {parts : List Phrase} {f : Phrase → Phrase}
    (h : ∀ part ∈ parts, ofPhrase (f part) = ofPhrase part) :
    ofPhrases (parts.map f) = ofPhrases parts := by
  induction parts with
  | nil => rfl
  | cons part parts ih =>
    obtain ⟨hpart, hparts⟩ := List.forall_mem_cons.mp h
    rw [List.map_cons, ofPhrases_cons, ofPhrases_cons, hpart, ih hparts]

/-- The case of letters has no part in the meaning of a phrase that was read from lexemes. -/
theorem ofPhrase_relabel_of_isSequence {tokens : List Token} {phrase : Phrase}
    (h : IsSequence tokens phrase) (hlexemes : AreLexemes tokens) :
    ofPhrase (phrase.relabel .lowered) = ofPhrase phrase := by
  cases h with
  | @lists first rest lists hlists =>
    have hall := ofPhrase_relabel_of_areLists hlists hlexemes
    rw [Phrase.relabel_node]
    match lists with
    | [] => rfl
    | [list] =>
      rw [List.map_singleton, ofPhrase_sequence_singleton, ofPhrase_sequence_singleton]
      exact hall list List.mem_cons_self
    | a :: b :: others =>
      have hitems := ofPhrases_map_congr hall
      rw [List.map_cons, List.map_cons] at hitems ⊢
      rw [ofPhrase_sequence_cons_cons, ofPhrase_sequence_cons_cons, hitems]

end Expr

/-! ## 6. Texts -/

/-- A text in lower case is read as the phrase of the text, or refused at the same position. -/
theorem readPhrase_map_lower (text : Bytes) :
    (∃ phrase, readPhrase text = .ok phrase ∧
      readPhrase (text.map lower) = .ok (phrase.relabel .lowered)) ∨
    ∃ fault other, readPhrase text = .error fault ∧ readPhrase (text.map lower) = .error other ∧
      other.position = fault.position := by
  unfold readPhrase tokensOf
  rw [Lexer.scan_map_lower]
  cases (Lexer.scan 0 text).1 with
  | error fault => exact .inr ⟨fault, fault, rfl, rfl, rfl⟩
  | ok tokens =>
    have hanswer := (Reader.parse_relabelled (Reader.relabelledTokens_map (r := .lowered) .comma tokens)).1
    show (∃ phrase, (Reader.parse tokens).1 = _ ∧ (Reader.parse _).1 = _) ∨
      ∃ fault other, (Reader.parse tokens).1 = _ ∧ (Reader.parse _).1 = _ ∧ _
    rw [hanswer]
    cases (Reader.parse tokens).1 with
    | ok phrase => exact .inl ⟨phrase, rfl, rfl⟩
    | error fault => exact .inr ⟨fault, fault.relabel .lowered, rfl, rfl, rfl⟩

/-- Two texts mean the same expression, or mean nothing for the same reason, or are both refused
where they are read, at the same position. -/
inductive MeanAlike : Except OwnFault Expr → Except OwnFault Expr → Prop where
  | expr (e : Expr) : MeanAlike (.ok e) (.ok e)
  | meaning (fault : MeaningFault) : MeanAlike (.error (.meaning fault)) (.error (.meaning fault))
  | reading {fault other : ReadingFault} : fault.position = other.position →
      MeanAlike (.error (.reading fault)) (.error (.reading other))

theorem MeanAlike.symm {meaning other : Except OwnFault Expr} (h : MeanAlike meaning other) :
    MeanAlike other meaning := by
  cases h with
  | expr e => exact .expr e
  | meaning fault => exact .meaning fault
  | reading hposition => exact .reading hposition.symm

theorem MeanAlike.trans {first second third : Except OwnFault Expr} (h : MeanAlike first second)
    (h' : MeanAlike second third) : MeanAlike first third := by
  cases h with
  | expr e => exact h'
  | meaning fault => exact h'
  | reading hposition =>
    cases h' with
    | reading hposition' => exact .reading (hposition.trans hposition')

theorem compile_map_lower (text : Bytes) : MeanAlike (compile text) (compile (text.map lower)) := by
  obtain ⟨phrase, hread, hlower⟩ | ⟨fault, other, hread, hlower, hposition⟩ :=
    readPhrase_map_lower text
  · obtain ⟨tokens, hlexemes, hsequence⟩ := Expr.isSequence_of_readPhrase hread
    have hmeaning := Expr.ofPhrase_relabel_of_isSequence hsequence hlexemes
    unfold compile
    rw [hread, hlower]
    show MeanAlike ((Expr.ofPhrase phrase).mapError .meaning)
      ((Expr.ofPhrase (phrase.relabel .lowered)).mapError .meaning)
    rw [hmeaning]
    cases Expr.ofPhrase phrase with
    | ok e => exact .expr e
    | error fault => exact .meaning fault
  · unfold compile
    rw [hread, hlower]
    exact .reading hposition.symm

/-- Texts that differ in the case of letters only mean the same expression, or mean nothing for the
same reason, in the same words, or are both refused at the same position. -/
theorem compile_of_lower_eq {text other : Bytes} (h : text.map lower = other.map lower) :
    MeanAlike (compile text) (compile other) := by
  have hother := (compile_map_lower other).symm
  rw [← h] at hother
  exact (compile_map_lower text).trans hother

/-- Letters of rolls and directives; and, with the same letters alone, a directive without
digits. -/
theorem compile_of_lower_eq_mixed :
    ((bytes "2D6Kh1 + 3DF").map lower = (bytes "2d6kH1 + 3df").map lower ∧
      ∃ e, compile (bytes "2D6Kh1 + 3DF") = .ok e ∧ compile (bytes "2d6kH1 + 3df") = .ok e) ∧
    (bytes "2D6 Kh").map lower = (bytes "2d6 kH").map lower ∧
      compile (bytes "2D6 Kh") = .error (.reading ⟨.missingAmount, 6⟩) ∧
      ∃ complaint, compile (bytes "2d6 kH") = .error (.reading ⟨complaint, 6⟩) := by
  have hread : (bytes "2D6Kh1 + 3DF").map lower = (bytes "2d6kH1 + 3df").map lower := by decide
  have hrefused : (bytes "2D6 Kh").map lower = (bytes "2d6 kH").map lower := by decide
  have hfault : compile (bytes "2D6 Kh") = .error (.reading ⟨.missingAmount, 6⟩) := by cbv
  have hexpr : (compile (bytes "2D6Kh1 + 3DF")).isOk = true := by cbv
  refine ⟨⟨hread, ?_⟩, hrefused, hfault, ?_⟩
  · have halike := compile_of_lower_eq hread
    generalize compile (bytes "2D6Kh1 + 3DF") = meaning at *
    generalize compile (bytes "2d6kH1 + 3df") = other at *
    cases halike with
    | expr e => exact ⟨e, rfl, rfl⟩
    | meaning | reading => exact Bool.noConfusion hexpr
  · have halike := compile_of_lower_eq hrefused
    rw [hfault] at halike
    generalize compile (bytes "2d6 kH") = other at *
    cases halike with
    | @reading _ fault hposition =>
      obtain ⟨complaint, position⟩ := fault
      obtain rfl : 6 = position := hposition
      exact ⟨complaint, rfl⟩

end DiceFormula
