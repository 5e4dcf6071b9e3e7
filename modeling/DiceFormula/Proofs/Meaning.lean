import DiceFormula.Formula
import DiceFormula.Proofs.Decimal
import DiceFormula.Proofs.Parts
import DiceFormula.Proofs.Rolling

/-!
# What phrases mean is well-formed

Whatever phrase is given, read from a text or not, its expression is put together by the builders
from numbers of the range. Hence the limits hold at every part of it.
-/

namespace DiceFormula

/-! ## 1. Numbers -/

theorem Decimal.fits_of_read {text : Bytes} {value : Int} (h : Decimal.read text = .ok value) :
    Word.Fits value := by
  unfold Decimal.read at h
  grind

namespace Expr

theorem fits_of_readNumber {text : Bytes} {value : Int} (h : readNumber text = .ok value) :
    Word.Fits value := by
  unfold readNumber at h
  split at h
  next hread =>
    obtain rfl := Except.ok.inj h
    exact Decimal.fits_of_read hread
  next => exact nomatch h
  next => exact nomatch h

/-! ## 2. Rolls and operations -/

variable {e : Expr}

-- Where a letter and sides stand behind the count, only numbers and limits are left to be refused.
theorem ofRoll_of_split {text count rest : Bytes} {letter b : UInt8}
    (htake : (text.map lower).takeWhile (· != ascii 'd') = count)
    (hdrop : (text.map lower).dropWhile (· != ascii 'd') = letter :: b :: rest) :
    ofRoll text =
      (if count.isEmpty then .ok 1 else readNumber count) >>= fun n =>
        if b :: rest = bytes "f" then Build.fudgeDice n
        else readNumber (b :: rest) >>= Build.dice n := by
  unfold ofRoll
  simp only [htake, hdrop]
  cases count.isEmpty <;> rfl

/-- Digits have no lower case and no letter among them, so they end where the letter stands. -/
theorem ofRoll_of_digits {count sides rest : Bytes} {letter b : UInt8}
    (hcount : ∀ b ∈ count, isDigit b = true) (hletter : lower letter = ascii 'd')
    (hsides : sides.map lower = b :: rest) :
    ofRoll (count ++ letter :: sides) =
      (if count.isEmpty then .ok 1 else readNumber count) >>= fun n =>
        if b :: rest = bytes "f" then Build.fudgeDice n
        else readNumber (b :: rest) >>= Build.dice n := by
  have hmap : (count ++ letter :: sides).map lower = count ++ ascii 'd' :: b :: rest := by
    rw [List.map_append, Decimal.map_lower_of_digits hcount, List.map_cons, hletter, hsides]
  have hdigit : ∀ b : UInt8, isDigit b = true → (b != ascii 'd') = true := by decide +kernel
  have hbefore : ∀ b ∈ count, (b != ascii 'd') = true := fun b hb => hdigit b (hcount b hb)
  have hend : ¬ (ascii 'd' != ascii 'd') = true := by decide
  apply ofRoll_of_split
  · rw [hmap, List.takeWhile_append_of_pos hbefore, List.takeWhile_cons, if_neg hend, List.append_nil]
  · rw [hmap, List.dropWhile_append_of_pos hbefore, List.dropWhile_cons, if_neg hend]

theorem isBuilt_of_ofRoll {text : Bytes} (h : ofRoll text = .ok e) : IsBuilt e := by
  match hdrop : (text.map lower).dropWhile (· != ascii 'd') with
  | [] | [_] =>
    unfold ofRoll at h
    simp only [hdrop, reduceCtorEq] at h
  | letter :: b :: rest =>
    rw [ofRoll_of_split rfl hdrop] at h
    obtain ⟨count, -, h⟩ := bind_eq_ok_iff.mp h
    split at h
    next => exact .fudgeDice h
    next =>
      obtain ⟨sides, hsides, h⟩ := bind_eq_ok_iff.mp h
      exact .dice (fits_of_readNumber hsides) h

theorem isBuilt_of_withDirectives {pool : Expr} {directives : List Phrase} (hpool : IsBuilt pool)
    (h : withDirectives pool directives = .ok e) : IsBuilt e := by
  match directives with
  | [] =>
    obtain rfl := Except.ok.inj h
    exact hpool
  | [directive] =>
    unfold withDirectives ofDirective at h
    dsimp only at h
    split at h
    next => exact nomatch h
    next =>
      split at h
      next => exact nomatch h
      next =>
        obtain ⟨amount, -, h⟩ := bind_eq_ok_iff.mp h
        exact .selected hpool h
  | _ :: _ :: _ => exact nomatch h

theorem isBuilt_of_ofOperation {text : Bytes} {left right : Expr} (hleft : IsBuilt left)
    (hright : IsBuilt right) (h : ofOperation text left right = .ok e) : IsBuilt e := by
  unfold ofOperation at h
  split at h
  next => exact nomatch h
  next => exact .binary hleft hright h

/-! ## 3. Phrases -/

theorem isBuilt_of_ofPhrases {parts : List Phrase} {items : List Expr}
    (hparts : ∀ part ∈ parts, ∀ {e}, ofPhrase part = .ok e → IsBuilt e)
    (h : ofPhrases parts = .ok items) : ∀ item ∈ items, IsBuilt item := by
  induction parts generalizing items with
  | nil =>
    obtain rfl := Except.ok.inj h
    exact fun item hitem => nomatch hitem
  | cons part parts ih =>
    obtain ⟨hpart, hparts⟩ := List.forall_mem_cons.mp hparts
    rw [ofPhrases_cons] at h
    obtain ⟨item, hitem, h⟩ := bind_eq_ok_iff.mp h
    obtain ⟨others, hothers, h⟩ := bind_eq_ok_iff.mp h
    obtain rfl := Except.ok.inj h
    exact List.forall_mem_cons.mpr ⟨hpart hitem, ih hparts hothers⟩

-- The items of a sequence are read one after another, whatever their number.
theorem ofPhrase_sequence_cons_cons (text : Bytes) (position : Nat) (first second : Phrase)
    (rest : List Phrase) :
    ofPhrase (.node .sequence text position (first :: second :: rest)) =
      ofPhrases (first :: second :: rest) >>= fun items => Build.sequence (items.map some) := by
  rw [ofPhrase, ofPhrases_cons, ofPhrases_cons]
  cases ofPhrase first with
  | error fault => rfl
  | ok a =>
    cases ofPhrase second with
    | error fault => rfl
    | ok b => cases ofPhrases rest <;> rfl

theorem isBuilt_of_ofPhrase {phrase : Phrase} (h : ofPhrase phrase = .ok e) : IsBuilt e := by
  induction phrase generalizing e with
  | node rule text position parts ih =>
    cases rule with
    | sequence =>
      rcases parts with _ | ⟨first, _ | ⟨second, rest⟩⟩
      · cases h
      · rw [ofPhrase] at h
        exact ih first List.mem_cons_self h
      · rw [ofPhrase_sequence_cons_cons] at h
        obtain ⟨items, hitems, h⟩ := bind_eq_ok_iff.mp h
        exact .sequence (isBuilt_of_ofPhrases (fun part hpart _ => ih part hpart) hitems) h
    | list =>
      rcases parts with _ | ⟨first, _ | ⟨body, _ | ⟨third, rest⟩⟩⟩
      · cases h
      · rw [ofPhrase] at h
        exact ih first List.mem_cons_self h
      · rw [ofPhrase] at h
        split at h
        next => cases h
        next =>
          obtain ⟨n, -, h⟩ := bind_eq_ok_iff.mp h
          obtain ⟨inner, hinner, h⟩ := bind_eq_ok_iff.mp h
          exact .repeated (ih body (List.mem_cons_of_mem _ List.mem_cons_self) hinner) h
      · cases h
    | operation =>
      rcases parts with _ | ⟨left, _ | ⟨right, _ | ⟨third, rest⟩⟩⟩
      · cases h
      · cases h
      · rw [ofPhrase] at h
        obtain ⟨a, ha, h⟩ := bind_eq_ok_iff.mp h
        obtain ⟨b, hb, h⟩ := bind_eq_ok_iff.mp h
        exact isBuilt_of_ofOperation (ih left List.mem_cons_self ha)
          (ih right (List.mem_cons_of_mem _ List.mem_cons_self) hb) h
      · cases h
    | group =>
      rcases parts with _ | ⟨first, _ | ⟨second, rest⟩⟩
      · cases h
      · rw [ofPhrase] at h
        exact ih first List.mem_cons_self h
      · cases h
    | roll =>
      rw [ofPhrase] at h
      obtain ⟨pool, hpool, h⟩ := bind_eq_ok_iff.mp h
      exact isBuilt_of_withDirectives (isBuilt_of_ofRoll hpool) h
    | directive =>
      rw [ofPhrase] at h
      cases h
    | integer =>
      rw [ofPhrase] at h
      obtain ⟨value, hvalue, h⟩ := bind_eq_ok_iff.mp h
      obtain rfl := Except.ok.inj h
      exact .constant (fits_of_readNumber hvalue)

theorem isBuilt_of_compile {text : Bytes} (h : compile text = .ok e) : IsBuilt e := by
  obtain ⟨phrase, -, hmeaning⟩ := bind_eq_ok_iff.mp h
  exact isBuilt_of_ofPhrase (mapError_eq_ok_iff.mp hmeaning)

/-- A phrase is refused with the fault of a meaning, or it means an expression with the limits kept
at every part, and with no sequence inside. -/
theorem ofPhrase_sound (phrase : Phrase) :
    (∃ fault, ofPhrase phrase = .error fault) ∨
      ∃ e, ofPhrase phrase = .ok e ∧
        ∀ path part, e.at? path = some part → part.Sound ∧ (part.isSequence = true → path = []) := by
  cases h : ofPhrase phrase with
  | error fault => exact .inl ⟨fault, rfl⟩
  | ok e =>
    refine .inr ⟨e, rfl, fun path part hpart => ?_⟩
    obtain ⟨hfit, hroot⟩ := wellFormed_of_at? (wellFormed_of_isBuilt (isBuilt_of_ofPhrase h)) hpart
    exact ⟨sound_of_wellFormed hfit, hroot⟩

-- No text is read as this: a sequence in parentheses, a sign and blanks in front of numbers, and an
-- integer where a list belongs.
def strangePhrase : Phrase :=
  .node .group [] 9 [.node .sequence [] 0 [
    .node .integer (bytes " -2") 4 [],
    .node .list [] 1 [.node .integer (bytes " +2") 4 [],
      .node .roll (bytes " +3D6") 0 [.node .directive (bytes "DL 1") 2 []]]]]

theorem sound_strangePhrase :
    ∃ e, ofPhrase strangePhrase = .ok e ∧
      ∀ path part, e.at? path = some part → part.Sound ∧ (part.isSequence = true → path = []) := by
  apply (ofPhrase_sound strangePhrase).resolve_left
  rintro ⟨fault, h⟩
  exact nomatch (rfl : ofPhrase strangePhrase = .ok _).symm.trans h

end Expr

end DiceFormula
