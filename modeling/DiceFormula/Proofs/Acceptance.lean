import DiceFormula.Formula
import DiceFormula.Phrase.Legal
import DiceFormula.Proofs.Grammar
import DiceFormula.Proofs.Lexemes
import DiceFormula.Proofs.Meaning
import Mathlib

/-!
# Which texts mean something

The phrase of a text means an expression exactly if its numbers are within the limits, and then it
means its tree. Every other phrase of a text is refused for a number that is too small or too large
or for a second directive: the shapes of tokens and of phrases are never to blame.
-/

namespace DiceFormula

/-! ## 1. Attempts -/

/-- An attempt succeeds under a condition and with a given result. It is refused otherwise, but not
for the shape of anything. -/
inductive Decides {α : Type} (attempt : Except MeaningFault α) (legal : Prop) (result : α) : Prop where
  | accepted : legal → attempt = .ok result → Decides attempt legal result
  | refused {fault : MeaningFault} : ¬ legal → attempt = .error fault →
      fault.isStructural = false → Decides attempt legal result

namespace Decides

variable {α β : Type} {attempt : Except MeaningFault α} {legal other : Prop} {result : α}

theorem ok (h : Decides attempt legal result) (hlegal : legal) : attempt = .ok result := by
  cases h with
  | accepted _ hok => exact hok
  | refused hillegal _ _ => exact absurd hlegal hillegal

theorem error (h : Decides attempt legal result) (hillegal : ¬ legal) :
    ∃ fault, attempt = .error fault ∧ fault.isStructural = false := by
  cases h with
  | accepted hlegal _ => exact absurd hlegal hillegal
  | refused _ herror hshape => exact ⟨_, herror, hshape⟩

theorem congr (h : Decides attempt legal result) (hiff : legal ↔ other) :
    Decides attempt other result := by
  rwa [← hiff]

/-- Of two attempts, the second one is made only if the first one succeeds. -/
theorem bind {next : α → Except MeaningFault β} {later : β} (h : Decides attempt legal result)
    (hnext : legal → Decides (next result) other later) :
    Decides (attempt >>= next) (legal ∧ other) later := by
  cases h with
  | accepted hlegal hok =>
    rw [hok]
    show Decides (next result) _ _
    cases hnext hlegal with
    | accepted hother hlater => exact .accepted ⟨hlegal, hother⟩ hlater
    | refused hother herror hshape => exact .refused (fun h => hother h.2) herror hshape
  | refused hillegal herror hshape =>
    rw [herror]
    exact .refused (fun h => hillegal h.1) rfl hshape

theorem map {f : α → β} (h : Decides attempt legal result) :
    Decides (attempt >>= fun a => .ok (f a)) legal (f result) := by
  cases h with
  | accepted hlegal hok =>
    rw [hok]
    exact .accepted hlegal rfl
  | refused hillegal herror hshape =>
    rw [herror]
    exact .refused hillegal rfl hshape

/-- A check in front of an attempt. -/
theorem check {bad : Prop} [Decidable bad] {fault : MeaningFault}
    (hshape : fault.isStructural = false) (h : ¬ bad → Decides attempt legal result) :
    Decides (if bad then .error fault else attempt) (¬ bad ∧ legal) result := by
  by_cases hbad : bad
  · rw [if_pos hbad]
    exact .refused (fun h => h.1 hbad) rfl hshape
  · rw [if_neg hbad]
    cases h hbad with
    | accepted hlegal hok => exact .accepted ⟨hbad, hlegal⟩ hok
    | refused hillegal herror hshape => exact .refused (fun h => hillegal h.2) herror hshape

/-- A check that nothing follows. -/
theorem lastCheck {bad : Prop} [Decidable bad] {fault : MeaningFault}
    (hshape : fault.isStructural = false) :
    Decides (if bad then .error fault else .ok result) (¬ bad) result := by
  apply congr (check hshape fun _ => .accepted trivial rfl)
  rw [and_true]

end Decides

namespace Expr

open Phrase

/-! ## 2. Builders -/

theorem decides_legalCount (count : Int) :
    Decides (Build.legalCount count) (1 ≤ count ∧ count ≤ maxDice) () := by
  apply Decides.congr (Decides.check rfl fun _ => Decides.lastCheck rfl)
  omega

theorem decides_dice (count sides : Int) :
    Decides (Build.dice count sides) ((1 ≤ count ∧ count ≤ maxDice) ∧ 1 ≤ sides)
      (.dice { count := count, sides := sides }) := by
  apply Decides.congr ((decides_legalCount count).bind fun _ => Decides.lastCheck rfl)
  omega

theorem decides_fudgeDice (count : Int) :
    Decides (Build.fudgeDice count) (1 ≤ count ∧ count ≤ maxDice)
      (.dice { count := count, sides := 3, kind := .fudge }) :=
  (decides_legalCount count).map

theorem decides_selected (selector : Selector) (amount : Int) (pool : Pool) :
    Decides (Build.selected selector amount (some (.dice pool)))
      (1 ≤ amount ∧ amount ≤ pool.count) (.selected selector amount pool) := by
  apply Decides.congr (Decides.check rfl fun _ => Decides.lastCheck rfl)
  omega

theorem decides_repeated (count : Int) {body : Expr} (h : body.WellFormed)
    (hsequence : body.isSequence = false) :
    Decides (Build.repeated count (some body))
      ((1 ≤ count ∧ count ≤ maxRepetitions) ∧ count * body.load ≤ maxWork)
      (.repeated count body) := by
  unfold Build.repeated
  simp only [hsequence, Bool.false_eq_true, if_false]
  apply Decides.congr
    (Decides.check rfl fun _ => Decides.check rfl fun _ => Decides.lastCheck rfl)
  rw [← and_assoc, Bool.not_eq_true]
  constructor
  · rintro ⟨hcount, hwork⟩
    exact ⟨by omega, (repeated_isTooMuchWork_iff h (by omega)).mp hwork⟩
  · rintro ⟨hcount, hload⟩
    exact ⟨by omega, (repeated_isTooMuchWork_iff h (by omega)).mpr hload⟩

theorem decides_sequence {items : List Expr}
    (h : ∀ item ∈ items, item.WellFormed ∧ item.isSequence = false) (hlength : 2 ≤ items.length) :
    Decides (Build.sequence (items.map some)) (loadOfAll items ≤ maxWork) (.sequence items) := by
  have hitems := mapM_item?_eq_some_iff.mpr ⟨fun item hitem => (h item hitem).2, (rfl : items = items)⟩
  unfold Build.sequence
  rw [List.length_map, if_neg (by omega), hitems]
  apply Decides.congr (Decides.lastCheck rfl)
  rw [Bool.not_eq_true]
  exact sequence_isTooMuchWork_iff (fun item hitem => (h item hitem).1) hlength

/-! ## 3. Numbers -/

theorem decides_readNumber {text : Bytes} {value : Int}
    (hread : Decimal.read text = if Word.Fits value then .ok value else .error .tooLarge) :
    Decides (readNumber text) (Word.Fits value) value := by
  unfold readNumber
  by_cases hfits : Word.Fits value
  · rw [hread, if_pos hfits]
    exact .accepted hfits rfl
  · rw [hread, if_neg hfits]
    exact .refused hfits rfl rfl

theorem decides_digits {digits : Bytes} (hne : digits ≠ [])
    (hdigits : ∀ b ∈ digits, isDigit b = true) :
    Decides (readNumber digits) (Word.Fits (Decimal.valueOf digits)) (Decimal.valueOf digits) := by
  obtain ⟨b, rest, rfl⟩ := List.exists_cons_of_ne_nil hne
  have hb : isDigit b = true := hdigits b List.mem_cons_self
  have hsplit : Decimal.splitSign ((b :: rest).dropWhile isBlank) = (false, b :: rest) := by
    rw [List.dropWhile_cons, Decimal.not_isBlank_of_isDigit b hb, if_neg Bool.false_ne_true,
      Decimal.splitSign_of_isDigit rest hb]
  exact decides_readNumber (Decimal.read_of_splitSign hsplit hne hdigits rfl)

theorem decides_signed {digits : Bytes} (hne : digits ≠ [])
    (hdigits : ∀ b ∈ digits, isDigit b = true) :
    Decides (readNumber (ascii '-' :: digits)) (Word.Fits (-(Decimal.valueOf digits : Int)))
      (-(Decimal.valueOf digits : Int)) := by
  have hsplit : Decimal.splitSign ((ascii '-' :: digits).dropWhile isBlank) = (true, digits) := rfl
  exact decides_readNumber (Decimal.read_of_splitSign hsplit hne hdigits rfl)

theorem numeral_of_digits {digits : Bytes} (hne : digits ≠ [])
    (hdigits : ∀ b ∈ digits, isDigit b = true) : numeral digits = Decimal.valueOf digits := by
  obtain ⟨b, rest, rfl⟩ := List.exists_cons_of_ne_nil hne
  have hb : isDigit b = true := hdigits b List.mem_cons_self
  rw [numeral, if_neg]
  rintro rfl
  exact absurd hb (by decide)

theorem decides_number {text : Bytes} (h : Lexeme .number text) :
    Decides (readNumber text) (Word.Fits (numeral text)) (numeral text) := by
  cases h with
  | number hne hdigits =>
    rw [numeral_of_digits hne hdigits]
    exact decides_digits hne hdigits

theorem decides_signedNumber {text : Bytes} (h : Lexeme .number text) :
    Decides (readNumber (ascii '-' :: text)) (Word.Fits (numeral (ascii '-' :: text)))
      (numeral (ascii '-' :: text)) := by
  cases h with
  | number hne hdigits =>
    rw [numeral, if_pos rfl]
    exact decides_signed hne hdigits

/-! ## 4. Rolls -/

theorem decides_countOf {count : Bytes} (hdigits : ∀ b ∈ count, isDigit b = true) :
    Decides (if count.isEmpty then .ok 1 else readNumber count) (Word.Fits (countOf count))
      (countOf count) := by
  unfold countOf
  by_cases hempty : count.isEmpty = true
  · rw [if_pos hempty, if_pos hempty]
    exact .accepted (by decide) rfl
  · rw [if_neg hempty, if_neg hempty]
    rw [List.isEmpty_iff] at hempty
    exact decides_digits hempty hdigits

theorem poolOf_append {count sides : Bytes} {letter : UInt8}
    (hdigits : ∀ b ∈ count, isDigit b = true) (hletter : lower letter = ascii 'd') :
    poolOf (count ++ letter :: sides) =
      if sides.map lower = bytes "f" then { count := countOf count, sides := 3, kind := .fudge }
      else { count := countOf count, sides := Decimal.valueOf sides } := by
  have hnone : ∀ b : UInt8, lower b = ascii 'd' → ¬ isDigit b = true := by decide +kernel
  have htake : (count ++ letter :: sides).takeWhile isDigit = count := by
    rw [List.takeWhile_append_of_pos hdigits, List.takeWhile_cons, if_neg (hnone letter hletter),
      List.append_nil]
  have hdrop : (count ++ letter :: sides).dropWhile isDigit = letter :: sides := by
    rw [List.dropWhile_append_of_pos hdigits, List.dropWhile_cons, if_neg (hnone letter hletter)]
  unfold poolOf
  rw [htake, hdrop]
  rfl

theorem decides_standard {count sides : Bytes} {letter : UInt8}
    (hcount : ∀ b ∈ count, isDigit b = true) (hletter : lower letter = ascii 'd')
    (hne : sides ≠ []) (hsides : ∀ b ∈ sides, isDigit b = true) :
    Decides (ofRoll (count ++ letter :: sides)) (LegalPool (poolOf (count ++ letter :: sides)))
      (.dice (poolOf (count ++ letter :: sides))) := by
  have hlower : sides.map lower = sides := Decimal.map_lower_of_digits hsides
  have hnumber : sides ≠ bytes "f" := by
    rintro rfl
    exact absurd (hsides (ascii 'f') List.mem_cons_self) (by decide)
  obtain ⟨b, rest, hcons⟩ := List.exists_cons_of_ne_nil hne
  rw [poolOf_append hcount hletter, hlower,
    ofRoll_of_digits hcount hletter (hlower.trans hcons), ← hcons]
  simp only [if_neg hnumber]
  apply Decides.congr ((decides_countOf hcount).bind fun _ =>
    (decides_digits hne hsides).bind fun _ => decides_dice _ _)
  constructor
  · rintro ⟨-, hfits, hlimits, hpos⟩
    exact ⟨hlimits, .inr ⟨hpos, hfits.2⟩⟩
  · rintro ⟨hlimits, hkind | ⟨hpos, hle⟩⟩
    · exact nomatch hkind
    · exact ⟨fits_of_le_maxDice hlimits.1 hlimits.2, ⟨by simp only [Word.least]; omega, hle⟩, hlimits, hpos⟩

theorem decides_fudge {count : Bytes} {letter f : UInt8} (hcount : ∀ b ∈ count, isDigit b = true)
    (hletter : lower letter = ascii 'd') (hf : lower f = ascii 'f') :
    Decides (ofRoll (count ++ [letter, f])) (LegalPool (poolOf (count ++ [letter, f])))
      (.dice (poolOf (count ++ [letter, f]))) := by
  have hlower : [f].map lower = [ascii 'f'] := congrArg (fun b => [b]) hf
  have hfudge : [ascii 'f'] = bytes "f" := rfl
  rw [poolOf_append hcount hletter, ofRoll_of_digits hcount hletter hlower, hlower]
  simp only [if_pos hfudge]
  apply Decides.congr ((decides_countOf hcount).bind fun _ => decides_fudgeDice _)
  constructor
  · rintro ⟨-, hlimits⟩
    exact ⟨hlimits, .inl rfl⟩
  · rintro ⟨hlimits, -⟩
    exact ⟨fits_of_le_maxDice hlimits.1 hlimits.2, hlimits⟩

theorem decides_ofRoll {text : Bytes} (h : Lexeme .roll text) :
    Decides (ofRoll text) (LegalPool (poolOf text)) (.dice (poolOf text)) := by
  cases h with
  | sided hcount hletter hne hsides => exact decides_standard hcount hletter hne hsides
  | fudge hcount hletter hf => exact decides_fudge hcount hletter hf

/-- The first letter says whether dice are kept or dropped, the second one says which. -/
theorem ofLetters?_eq_selectorOf {first second : UInt8}
    (hfirst : lower first = ascii 'k' ∨ lower first = ascii 'd')
    (hsecond : lower second = ascii 'h' ∨ lower second = ascii 'l') (amount : Bytes) :
    Selector.ofLetters? [lower first, lower second] =
      some (selectorOf (first :: second :: amount)) := by
  simp only [selectorOf, List.take_succ_cons, List.take_zero, List.map_cons, List.map_nil]
  rcases hfirst with hfirst | hfirst <;> rcases hsecond with hsecond | hsecond <;>
    rw [hfirst, hsecond] <;> rfl

theorem decides_ofDirective {pool : Pool} {text : Bytes} (position : Nat)
    (hle : pool.count ≤ maxDice) (h : Lexeme .directive text) :
    Decides (ofDirective (.dice pool) (.node .directive text position []))
      (1 ≤ amountOf text ∧ amountOf text ≤ pool.count)
      (.selected (selectorOf text) (amountOf text) pool) := by
  cases h with
  | @directive first second amount hfirst hsecond hne hdigits =>
    have hselector := ofLetters?_eq_selectorOf hfirst hsecond amount
    have hmap : (first :: second :: amount).map lower = lower first :: lower second :: amount := by
      rw [List.map_cons, List.map_cons, Decimal.map_lower_of_digits hdigits]
    have hlength : ¬ (lower first :: lower second :: amount).length < 3 := by
      have hpos := List.length_pos_of_ne_nil hne
      rw [List.length_cons, List.length_cons]
      omega
    have hattempt : ofDirective (.dice pool) (.node .directive (first :: second :: amount) position []) =
        readNumber amount >>= fun n =>
          Build.selected (selectorOf (first :: second :: amount)) n (some (.dice pool)) := by
      unfold ofDirective
      simp only [Phrase.rule, Phrase.text, hmap, if_neg hlength, ne_eq, not_true_eq_false, false_or,
        List.take_succ_cons, List.take_zero, List.drop_succ_cons, List.drop_zero, hselector]
    rw [hattempt]
    apply Decides.congr ((decides_digits hne hdigits).bind fun _ => decides_selected _ _ pool)
    -- An amount that is no word is more than all dice of the pool.
    constructor
    · exact And.right
    · intro hlimits
      exact ⟨fits_of_le_maxDice hlimits.1 (le_trans hlimits.2 hle), hlimits⟩

theorem decides_withDirectives {pool : Pool} (hle : pool.count ≤ maxDice) {directives : List Token}
    (h : ∀ d ∈ directives, Lexeme .directive d.text) :
    Decides
      (withDirectives (.dice pool) (directives.map fun d => .node .directive d.text d.position []))
      (LegalDirectives pool (directives.map fun d => .node .directive d.text d.position []))
      (chosen pool (directives.map fun d => .node .directive d.text d.position [])) := by
  match directives with
  | [] => exact .accepted ⟨Nat.zero_le 1, fun d hd => absurd hd List.not_mem_nil⟩ rfl
  | [d] =>
    apply (decides_ofDirective d.position hle (h d List.mem_cons_self)).congr
    constructor
    · exact fun hamount => ⟨Nat.le_refl 1, List.forall_mem_singleton.mpr hamount⟩
    · exact fun hlegal => hlegal.amount _ List.mem_cons_self
  | _ :: _ :: _ =>
    refine .refused (fun hlegal => ?_) rfl rfl
    have hsingle := hlegal.single
    simp only [List.map_cons, List.length_cons] at hsingle
    omega

/-! ## 5. Operands -/

/-- A phrase means its tree under its limits, and the value of the tree is a number. -/
structure MeansNumber (phrase : Phrase) : Prop where
  decides : Decides (ofPhrase phrase) phrase.Legal phrase.tree
  number : phrase.tree.yieldsList = false

theorem meansNumber_roll {text : Bytes} {directives : List Token} (position : Nat)
    (htext : Lexeme .roll text) (hdirectives : ∀ d ∈ directives, Lexeme .directive d.text) :
    MeansNumber (.node .roll text position
      (directives.map fun d => .node .directive d.text d.position [])) where
  decides := by
    rw [ofPhrase, tree, Legal]
    exact (decides_ofRoll htext).bind fun hpool => decides_withDirectives hpool.count.2 hdirectives
  number := by
    rw [tree]
    cases directives <;> rfl

theorem meansNumber_integer {text : Bytes} (position : Nat)
    (h : Decides (readNumber text) (Word.Fits (numeral text)) (numeral text)) :
    MeansNumber (.node .integer text position []) where
  decides := by
    rw [ofPhrase, tree, Legal]
    exact h.map
  number := by
    rw [tree]
    rfl

theorem meansNumber_group {inner : Phrase} (position : Nat) (h : MeansNumber inner) :
    MeansNumber (.node .group [] position [inner]) where
  decides := by
    rw [ofPhrase, tree, Legal, AllLegal, AllLegal, and_true]
    exact h.decides
  number := by
    rw [tree]
    exact h.number

theorem ofSymbol?_of_lexeme {kind : Kind} {text : Bytes} (h : Lexeme kind text)
    (hkind : (kind = .star ∨ kind = .slash) ∨ kind = .plus ∨ kind = .minus) :
    Operator.ofSymbol? text = some (operatorOf text) := by
  rcases hkind with (rfl | rfl) | rfl | rfl <;> cases h <;> rfl

theorem meansNumber_operation {operator : Token} {left right : Phrase}
    (htext : Lexeme operator.kind operator.text)
    (hkind : (operator.kind = .star ∨ operator.kind = .slash) ∨
      operator.kind = .plus ∨ operator.kind = .minus)
    (hleft : MeansNumber left) (hright : MeansNumber right) :
    MeansNumber (Grammar.operation operator left right) where
  decides := by
    have hbuild : ofOperation operator.text left.tree right.tree =
        .ok (.binary (operatorOf operator.text) left.tree right.tree) := by
      unfold ofOperation
      rw [ofSymbol?_of_lexeme htext hkind]
      exact binary_eq_ok_iff.mpr ⟨hleft.number, hright.number, rfl⟩
    unfold Grammar.operation
    rw [ofPhrase, tree, Legal, AllLegal, AllLegal, AllLegal]
    exact hleft.decides.bind fun _ => hright.decides.bind fun _ => .accepted trivial hbuild
  number := by
    unfold Grammar.operation
    rw [tree]
    rfl

/-! ## 6. Derivations -/

/-- All tokens are lexemes of their kinds. -/
def AreLexemes (tokens : List Token) : Prop :=
  ∀ token ∈ tokens, Lexeme token.kind token.text

theorem areLexemes_append {left right : List Token} :
    AreLexemes (left ++ right) ↔ AreLexemes left ∧ AreLexemes right :=
  List.forall_mem_append

theorem areLexemes_cons {token : Token} {tokens : List Token} :
    AreLexemes (token :: tokens) ↔ Lexeme token.kind token.text ∧ AreLexemes tokens :=
  List.forall_mem_cons

open Grammar

mutual

theorem meansNumber_of_isFactor {tokens : List Token} {factor : Phrase} (h : IsFactor tokens factor)
    (hlexemes : AreLexemes tokens) : MeansNumber factor :=
  match h with
  | @IsFactor.roll first directives hfirst hdirectives => by
    obtain ⟨htext, hrest⟩ := areLexemes_cons.mp hlexemes
    rw [hfirst] at htext
    exact meansNumber_roll first.position htext fun d hd => hdirectives d hd ▸ hrest d hd
  | @IsFactor.number number hnumber => by
    have htext := (areLexemes_cons.mp hlexemes).1
    rw [hnumber] at htext
    exact meansNumber_integer number.position (decides_number htext)
  | @IsFactor.signed sign number hsign hnumber _ => by
    have htext := (areLexemes_cons.mp (areLexemes_cons.mp hlexemes).2).1
    rw [hnumber] at htext
    exact meansNumber_integer sign.position (decides_signedNumber htext)
  | @IsFactor.group opening closing inner _ _ _ hsum => by
    have hinner := (areLexemes_append.mp (areLexemes_cons.mp hlexemes).2).1
    exact meansNumber_group opening.position (meansNumber_of_isSum hsum hinner)

theorem meansNumber_of_isTerm {tokens : List Token} {term : Phrase} (h : IsTerm tokens term)
    (hlexemes : AreLexemes tokens) : MeansNumber term :=
  match h with
  | .factor hfactor => meansNumber_of_isFactor hfactor hlexemes
  | .product hleft hoperator hright => by
    obtain ⟨hl, hrest⟩ := areLexemes_append.mp hlexemes
    obtain ⟨htext, hr⟩ := areLexemes_cons.mp hrest
    exact meansNumber_operation htext (.inl hoperator) (meansNumber_of_isTerm hleft hl)
      (meansNumber_of_isFactor hright hr)

theorem meansNumber_of_isSum {tokens : List Token} {sum : Phrase} (h : IsSum tokens sum)
    (hlexemes : AreLexemes tokens) : MeansNumber sum :=
  match h with
  | .term hterm => meansNumber_of_isTerm hterm hlexemes
  | .sum hleft hoperator hright => by
    obtain ⟨hl, hrest⟩ := areLexemes_append.mp hlexemes
    obtain ⟨htext, hr⟩ := areLexemes_cons.mp hrest
    exact meansNumber_operation htext (.inr hoperator) (meansNumber_of_isSum hleft hl)
      (meansNumber_of_isTerm hright hr)

end

/-- A phrase means its tree under its limits, and the tree is no sequence. -/
structure MeansItem (phrase : Phrase) : Prop where
  decides : Decides (ofPhrase phrase) phrase.Legal phrase.tree
  item : phrase.tree.isSequence = false

theorem MeansItem.wellFormed {phrase : Phrase} (h : MeansItem phrase) (hlegal : phrase.Legal) :
    phrase.tree.WellFormed :=
  wellFormed_of_isBuilt (isBuilt_of_ofPhrase (h.decides.ok hlegal))

theorem meansItem_body {body : Phrase} (position : Nat) (h : MeansNumber body) :
    MeansItem (.node .list [] position [body]) where
  decides := by
    rw [ofPhrase, tree, Legal, AllLegal, AllLegal, and_true]
    · exact h.decides
    · intro _ _ h
      cases h
  item := by
    rw [tree]
    exact isSequence_eq_false_of_yieldsList h.number

theorem meansItem_repeated {count : Token} {list : Phrase} (hcount : Lexeme .number count.text)
    (h : MeansItem list) :
    MeansItem (.node .list count.text count.position
      [.node .integer count.text count.position [], list]) where
  decides := by
    rw [ofPhrase, tree, Legal]
    simp only [Phrase.rule, Phrase.text, ne_eq, not_true_eq_false, if_false]
    apply Decides.congr ((decides_number hcount).bind fun _ => h.decides.bind fun hlegal =>
      decides_repeated _ (h.wellFormed hlegal) h.item)
    constructor
    · rintro ⟨-, hlegal, hlimits, hload⟩
      exact ⟨hlimits, hlegal, hload⟩
    · rintro ⟨hlimits, hlegal, hload⟩
      have hfits := fits_of_le_maxDice hlimits.1 (le_trans hlimits.2 (by decide))
      exact ⟨hfits, hlegal, hlimits, hload⟩
  item := by
    rw [tree]
    rfl

theorem meansItem_of_isList {tokens : List Token} {list : Phrase} (h : IsList tokens list)
    (hlexemes : AreLexemes tokens) : MeansItem list := by
  induction h with
  | @body first rest phrase hsum =>
    exact meansItem_body first.position (meansNumber_of_isSum hsum hlexemes)
  | repeated hcount _ _ _ ih =>
    obtain ⟨htext, hrest⟩ := areLexemes_cons.mp hlexemes
    rw [hcount] at htext
    exact meansItem_repeated htext (ih hrest)

theorem meansItem_of_areLists {tokens : List Token} {lists : List Phrase}
    (h : AreLists tokens lists) (hlexemes : AreLexemes tokens) : ∀ list ∈ lists, MeansItem list := by
  induction h with
  | single hlist => exact List.forall_mem_singleton.mpr (meansItem_of_isList hlist hlexemes)
  | more hlist _ _ ih =>
    obtain ⟨hfirst, hrest⟩ := areLexemes_append.mp hlexemes
    exact List.forall_mem_cons.mpr
      ⟨meansItem_of_isList hlist hfirst, ih (areLexemes_cons.mp hrest).2⟩

theorem ne_nil_of_areLists {tokens : List Token} {lists : List Phrase} (h : AreLists tokens lists) :
    lists ≠ [] := by
  cases h <;> exact List.cons_ne_nil _ _

/-! ## 7. Whole texts -/

theorem decides_ofPhrases {parts : List Phrase} (h : ∀ part ∈ parts, MeansItem part) :
    Decides (ofPhrases parts) (AllLegal parts) (trees parts) := by
  induction parts with
  | nil => exact .accepted trivial rfl
  | cons part parts ih =>
    obtain ⟨hpart, hparts⟩ := List.forall_mem_cons.mp h
    rw [ofPhrases_cons, AllLegal, trees]
    exact hpart.decides.bind fun _ => (ih hparts).map

theorem decides_sequencePhrase {parts : List Phrase} (position : Nat)
    (h : ∀ part ∈ parts, MeansItem part) (hne : parts ≠ []) :
    Decides (ofPhrase (.node .sequence [] position parts))
      (Phrase.node .sequence [] position parts).Legal
      (Phrase.node .sequence [] position parts).tree := by
  match parts with
  | [] => exact absurd rfl hne
  | [part] =>
    rw [ofPhrase, tree, Legal, AllLegal, AllLegal, and_true]
    -- The work of a single part is not limited once more.
    have hsingle : ¬ 2 ≤ [part].length := Nat.not_succ_le_self 1
    simp only [hsingle, false_implies, and_true]
    exact (h part List.mem_cons_self).decides
  | first :: second :: rest =>
    have hlength : 2 ≤ (first :: second :: rest).length := by
      rw [List.length_cons, List.length_cons]
      omega
    have htrees : 2 ≤ (trees (first :: second :: rest)).length := by
      rwa [trees_eq_map, List.length_map]
    rw [ofPhrase_sequence_cons_cons, tree, Legal]
    · simp only [hlength, true_implies]
      refine (decides_ofPhrases h).bind fun hlegal => decides_sequence ?_ htrees
      rw [trees_eq_map, List.forall_mem_map]
      intro part hpart
      exact ⟨(h part hpart).wellFormed (allLegal_iff.mp hlegal part hpart), (h part hpart).item⟩
    · intro _ h
      cases h

theorem decides_of_isSequence {tokens : List Token} {phrase : Phrase} (h : IsSequence tokens phrase)
    (hlexemes : AreLexemes tokens) : Decides (ofPhrase phrase) phrase.Legal phrase.tree := by
  cases h with
  | @lists first rest lists hlists =>
    exact decides_sequencePhrase first.position (meansItem_of_areLists hlists hlexemes)
      (ne_nil_of_areLists hlists)

/-- The tokens of a text that is read are lexemes, and the grammar derives the phrase from them. -/
theorem isSequence_of_readPhrase {text : Bytes} {phrase : Phrase} (h : readPhrase text = .ok phrase) :
    ∃ tokens, AreLexemes tokens ∧ IsSequence tokens phrase := by
  obtain ⟨tokens, htokens, hparse⟩ := bind_eq_ok_iff.mp h
  obtain ⟨front, stop, rfl, hlexemes⟩ := Lexer.lexemes_of_scan htokens
  have hfront : ∀ token ∈ front, token.kind ≠ .finish := fun token htoken =>
    Lexer.kind_ne_finish_of_lexeme (hlexemes token htoken)
  exact ⟨front, hlexemes, Reader.isSequence_of_parse hfront hparse⟩

/-- The phrase of a text means its tree if all its numbers are within the limits. Otherwise it is
refused, and not for the shape of anything. -/
theorem ofPhrase_of_readPhrase {text : Bytes} {phrase : Phrase} (h : readPhrase text = .ok phrase) :
    (phrase.Legal → ofPhrase phrase = .ok phrase.tree) ∧
      (¬ phrase.Legal →
        ∃ fault, ofPhrase phrase = .error fault ∧ fault.isStructural = false) := by
  obtain ⟨tokens, hlexemes, hsequence⟩ := isSequence_of_readPhrase h
  have hdecides := decides_of_isSequence hsequence hlexemes
  exact ⟨hdecides.ok, hdecides.error⟩

/-- The phrase of `1000 (0099D6DL099 + 007)`. -/
def largestList : Phrase :=
  .node .sequence [] 0 [.node .list (bytes "1000") 0 [
    .node .integer (bytes "1000") 0 [],
    .node .list [] 5 [.node .group [] 5 [.node .operation (bytes "+") 18 [
      .node .roll (bytes "0099D6") 6 [.node .directive (bytes "DL099") 12 []],
      .node .integer (bytes "007") 20 []]]]]]

/-- Repetitions, dropped dice and work are as many as they may be. -/
theorem ofPhrase_largestList :
    readPhrase (bytes "1000 (0099D6DL099 + 007)") = .ok largestList ∧ largestList.Legal ∧
      ofPhrase largestList = .ok (.repeated 1000 (.binary .add
        (.selected .dropLowest 99 { count := 99, sides := 6 }) (.constant 7))) := by
  have hread : readPhrase (bytes "1000 (0099D6DL099 + 007)") = .ok largestList := by
    cbv
  have hlegal : largestList.Legal := by decide
  exact ⟨hread, hlegal, (ofPhrase_of_readPhrase hread).1 hlegal⟩

end Expr

end DiceFormula
