import DiceFormula.Proofs.Meaning
import DiceFormula.Proofs.Spelling

/-!
# Reading canonical texts back

The phrase of a canonical text means the expression that the text was written for, unless a negative
constant is repeated somewhere: there the phrase means a difference instead of a list. All the
limits are checked once more on the way, and hold because they held when the expression was built.
-/

namespace DiceFormula.Expr

/-! ## 1. Numbers, pools and selections -/

theorem readNumber_ofInt {i : Int} (h : Word.Fits i) : readNumber (Decimal.ofInt i) = .ok i := by
  unfold readNumber
  rw [Decimal.read_ofInt h]

theorem map_lower_ofInt {i : Int} (h : 0 ≤ i) : (Decimal.ofInt i).map lower = Decimal.ofInt i := by
  rw [Decimal.ofInt_of_nonneg h]
  exact Decimal.map_lower_of_digits Decimal.isDigit_of_mem_ofNat

/-- The count of a roll ends at the letter in the middle. -/
theorem ofRoll_append {count : Int} (hcount : 0 ≤ count) (hfits : Word.Fits count) {sides rest : Bytes}
    {b : UInt8} (hsides : sides.map lower = b :: rest) :
    ofRoll (Decimal.ofInt count ++ ascii 'd' :: sides) =
      if b :: rest = bytes "f" then Build.fudgeDice count
      else readNumber (b :: rest) >>= Build.dice count := by
  have hdigits : ∀ b ∈ Decimal.ofInt count, isDigit b = true := by
    rw [Decimal.ofInt_of_nonneg hcount]
    exact Decimal.isDigit_of_mem_ofNat
  have hne : ¬ (Decimal.ofInt count).isEmpty = true := by
    rw [Decimal.ofInt_of_nonneg hcount, List.isEmpty_iff]
    exact Decimal.ofNat_ne_nil _
  rw [ofRoll_of_digits hdigits rfl hsides, if_neg hne, readNumber_ofInt hfits]
  rfl

theorem ofRoll_text {pool : Pool} (h : pool.WellFormed) : ofRoll pool.text = .ok (.dice pool) := by
  have hcountFits : Word.Fits pool.count := fits_of_le_count h h.count_pos (Int.le_refl _)
  obtain ⟨hpos, hle, hsides, hfits, hfudge⟩ := h
  obtain ⟨count, sides, kind⟩ := pool
  have hcount : 1 ≤ count ∧ count ≤ maxDice := ⟨hpos, hle⟩
  have hsidesPos : 1 ≤ sides := hsides
  unfold Pool.text
  rw [List.append_assoc]
  cases kind with
  | standard =>
    have hmap := map_lower_ofInt (by omega : 0 ≤ sides)
    obtain ⟨b, rest, hcons, hb, -⟩ := Decimal.exists_digit_cons sides.natAbs
    rw [← Decimal.ofInt_of_nonneg (by omega : 0 ≤ sides)] at hcons
    rw [hcons] at hmap
    have hletter : b :: rest ≠ bytes "f" := by
      rintro h
      obtain rfl := (List.cons.inj h).1
      exact absurd hb (by decide)
    dsimp only
    rw [hcons]
    refine (ofRoll_append (by omega) hcountFits hmap).trans ?_
    rw [if_neg hletter, ← hcons, readNumber_ofInt hfits]
    exact dice_eq_ok_iff.mpr ⟨hcount, hsides, rfl⟩
  | fudge =>
    obtain rfl : sides = 3 := hfudge rfl
    have hmap : (bytes "F").map lower = ascii 'f' :: [] := rfl
    refine (ofRoll_append (by omega) hcountFits hmap).trans ?_
    rw [if_pos (show [ascii 'f'] = bytes "f" from rfl)]
    exact fudgeDice_eq_ok_iff.mpr ⟨hcount, rfl⟩

theorem ofDirective_text {selector : Selector} {amount : Int} {pool : Pool} (position : Nat)
    (hpool : pool.WellFormed) (hpos : 1 ≤ amount) (hle : amount ≤ pool.count) :
    ofDirective (.dice pool)
        (.node .directive (selector.letters ++ Decimal.ofInt amount) position []) =
      .ok (.selected selector amount pool) := by
  have hfits : Word.Fits amount := fits_of_le_count hpool hpos hle
  have hletters : selector.letters.map lower = selector.letters := by cases selector <;> rfl
  have hlength : selector.letters.length = 2 := by cases selector <;> rfl
  have hselector : Selector.ofLetters? selector.letters = some selector := by
    cases selector <;> decide
  have hdigits : 0 < (Decimal.ofInt amount).length := by
    rw [Decimal.ofInt_of_nonneg (by omega)]
    exact List.length_pos_of_ne_nil (Decimal.ofNat_ne_nil _)
  have hmap : (selector.letters ++ Decimal.ofInt amount).map lower =
      selector.letters ++ Decimal.ofInt amount := by
    rw [List.map_append, hletters, map_lower_ofInt (by omega)]
  have hlong : ¬ (selector.letters ++ Decimal.ofInt amount).length < 3 := by
    rw [List.length_append]
    omega
  unfold ofDirective
  simp only [Phrase.text, Phrase.rule, hmap, ne_eq, not_true_eq_false, false_or, if_neg hlong,
    List.take_left' hlength, List.drop_left' hlength, hselector, readNumber_ofInt hfits]
  exact selected_eq_ok_iff.mpr ⟨pool, rfl, hpos, hle, rfl⟩

/-! ## 2. Phrases of canonical texts -/

theorem ofPhrase_integer {i : Int} (h : Word.Fits i) (position : Nat) :
    ofPhrase (.node .integer (Decimal.ofInt i) position []) = .ok (.constant i) := by
  rw [ofPhrase, readNumber_ofInt h]
  rfl

theorem ofPhrase_asList (e : Expr) (position : Nat) (phrase : Phrase) :
    ofPhrase (e.asList position phrase) = ofPhrase phrase := by
  unfold asList
  split
  · rfl
  · exact ofPhrase_list_singleton [] position phrase

@[simp] theorem not_repeatsNegative_constant (value : Int) : ¬ RepeatsNegative (.constant value) :=
  fun h => nomatch h

@[simp] theorem not_repeatsNegative_dice (pool : Pool) : ¬ RepeatsNegative (.dice pool) :=
  fun h => nomatch h

@[simp] theorem not_repeatsNegative_selected (selector : Selector) (amount : Int) (pool : Pool) :
    ¬ RepeatsNegative (.selected selector amount pool) :=
  fun h => nomatch h

@[simp] theorem repeatsNegative_binary_iff {op : Operator} {left right : Expr} :
    RepeatsNegative (.binary op left right) ↔ RepeatsNegative left ∨ RepeatsNegative right := by
  constructor
  · intro h
    cases h with
    | left h => exact .inl h
    | right h => exact .inr h
  · rintro (h | h)
    · exact .left h
    · exact .right h

@[simp] theorem repeatsNegative_repeated_iff {count : Int} {body : Expr} :
    RepeatsNegative (.repeated count body) ↔ body.isNegative = true ∨ RepeatsNegative body := by
  constructor
  · intro h
    cases h with
    | here hvalue => exact .inl (decide_eq_true hvalue)
    | body h => exact .inr h
  · rintro (h | h)
    · cases body with
      | constant value => exact .here (of_decide_eq_true h)
      | _ => exact nomatch h
    · exact .body h

@[simp] theorem repeatsNegative_sequence_iff {items : List Expr} :
    RepeatsNegative (.sequence items) ↔ ∃ item ∈ items, RepeatsNegative item := by
  constructor
  · intro h
    cases h with
    | item hitem h => exact ⟨_, hitem, h⟩
  · rintro ⟨item, hitem, h⟩
    exact .item hitem h

-- An operation never means a list, whatever its operands are.
theorem ofOperation_ne_repeated {text : Bytes} {left right body : Expr} {count : Int} :
    ofOperation text left right ≠ .ok (.repeated count body) := by
  intro h
  unfold ofOperation at h
  split at h
  · exact nomatch h
  · exact nomatch (binary_eq_ok_iff.mp h).2.2

-- The builders give back their arguments, so that a phrase means an expression only if its parts mean
-- the parts.
theorem ofPhrase_operation_eq_ok_iff {op : Operator} {left right : Expr} {p q : Phrase}
    {position : Nat} (hleft : left.yieldsList = false) (hright : right.yieldsList = false) :
    ofPhrase (.node .operation [op.symbol] position [p, q]) = .ok (.binary op left right) ↔
      ofPhrase p = .ok left ∧ ofPhrase q = .ok right := by
  rw [ofPhrase]
  simp only [bind_eq_ok_iff, ofOperation, Operator.ofSymbol?_symbol, binary_eq_ok_iff,
    Expr.binary.injEq, true_and]
  constructor
  · rintro ⟨_, hp, _, hq, -, -, rfl, rfl⟩
    exact ⟨hp, hq⟩
  · rintro ⟨hp, hq⟩
    exact ⟨left, hp, right, hq, hleft, hright, rfl, rfl⟩

theorem ofPhrase_repetition_eq_ok_iff {count : Int} {body : Expr} {p : Phrase} {text : Bytes}
    {start position : Nat} (h : (repeated count body).WellFormed) :
    ofPhrase (.node .list text position [.node .integer (Decimal.ofInt count) start [], p]) =
        .ok (.repeated count body) ↔
      ofPhrase p = .ok body := by
  obtain ⟨hbody, hpos, hle, hsequence, hload⟩ := h
  have hfits : Word.Fits count := fits_of_le_maxDice hpos (le_trans hle (by decide))
  have hwork := (repeated_isTooMuchWork_iff hbody hpos).mpr hload
  rw [ofPhrase]
  simp only [Phrase.rule, Phrase.text, ne_eq, not_true_eq_false, if_false, readNumber_ofInt hfits,
    bind_eq_ok_iff, repeated_eq_ok_iff, Expr.repeated.injEq, Except.ok.injEq]
  constructor
  · rintro ⟨_, rfl, _, hp, -, -, -, -, rfl⟩
    exact hp
  · intro hp
    exact ⟨count, rfl, body, hp, ⟨hpos, hle⟩, hsequence, hwork, rfl, rfl⟩

theorem ofPhrases_cons_eq_ok_iff {part : Phrase} {parts : List Phrase} {item : Expr}
    {items : List Expr} :
    ofPhrases (part :: parts) = .ok (item :: items) ↔
      ofPhrase part = .ok item ∧ ofPhrases parts = .ok items := by
  rw [ofPhrases_cons]
  simp only [bind_eq_ok_iff, Except.ok.injEq, List.cons.injEq]
  constructor
  · rintro ⟨_, hpart, _, hparts, rfl, rfl⟩
    exact ⟨hpart, hparts⟩
  · rintro ⟨hpart, hparts⟩
    exact ⟨item, hpart, items, hparts, rfl, rfl⟩

theorem ofPhrase_sequence_eq_ok_iff {items : List Expr} {parts : List Phrase} {text : Bytes}
    {position : Nat} (h : (sequence items).WellFormed) (hlength : parts.length = items.length) :
    ofPhrase (.node .sequence text position parts) = .ok (.sequence items) ↔
      ofPhrases parts = .ok items := by
  obtain ⟨hitems, hmany, hload⟩ := h
  rw [areItems_iff] at hitems
  have hwork := (sequence_isTooMuchWork_iff (fun item hitem => (hitems item hitem).1) hmany).mpr hload
  match parts, hlength with
  | [], hlength | [_], hlength => simp only [List.length_cons, List.length_nil] at hlength; omega
  | first :: second :: rest, _ =>
    rw [ofPhrase, ofPhrases_cons, ofPhrases_cons]
    simp only [bind_eq_ok_iff, sequence_eq_ok_iff, Except.ok.injEq, Expr.sequence.injEq]
    constructor
    · rintro ⟨a, ha, b, hb, others, hothers, -, -, -, rfl⟩
      exact ⟨a, ha, b :: others, ⟨b, hb, others, hothers, rfl⟩, rfl⟩
    · rintro ⟨a, ha, _, ⟨b, hb, others, hothers, rfl⟩, rfl⟩
      exact ⟨a, ha, b, hb, others, hothers, hmany, fun item hitem => (hitems item hitem).2, hwork, rfl⟩

theorem ofPhrases_phrasesOfAll_eq_ok_iff {items : List Expr}
    (h : ∀ item ∈ items, ∀ position,
      ofPhrase (item.phraseAt position) = .ok item ↔ ¬ item.RepeatsNegative) (position : Nat) :
    ofPhrases (phrasesOfAll position items) = .ok items ↔
      ∀ item ∈ items, ¬ item.RepeatsNegative := by
  induction items generalizing position with
  | nil => exact ⟨fun _ item hitem => (nomatch hitem), fun _ => rfl⟩
  | cons item items ih =>
    obtain ⟨hitem, hitems⟩ := List.forall_mem_cons.mp h
    rw [phrasesOfAll, ofPhrases_cons_eq_ok_iff, ofPhrase_asList, hitem, ih hitems,
      List.forall_mem_cons]

/-! ## 3. The round trip -/

theorem ofPhrase_phraseAt_eq_ok_iff {e : Expr} (h : e.WellFormed) (position : Nat) :
    ofPhrase (e.phraseAt position) = .ok e ↔ ¬ e.RepeatsNegative := by
  induction e generalizing position with
  | constant value =>
    rw [phraseAt]
    exact iff_of_true (ofPhrase_integer h position) (not_repeatsNegative_constant value)
  | dice pool =>
    have hread : ofPhrase ((dice pool).phraseAt position) = .ok (dice pool) := by
      rw [phraseAt, ofPhrase, ofRoll_text h]
      rfl
    exact iff_of_true hread (not_repeatsNegative_dice pool)
  | selected selector amount pool =>
    obtain ⟨hpool, hpos, hle⟩ := h
    have hread : ofPhrase ((selected selector amount pool).phraseAt position) =
        .ok (selected selector amount pool) := by
      rw [phraseAt, ofPhrase, ofRoll_text hpool]
      exact ofDirective_text _ hpool hpos hle
    exact iff_of_true hread (not_repeatsNegative_selected selector amount pool)
  | binary op left right ihleft ihright =>
    obtain ⟨hleft, hright, hleftNumber, hrightNumber⟩ := h
    rw [phraseAt, ofPhrase, ofPhrase_operation_eq_ok_iff hleftNumber hrightNumber, ihleft hleft,
      ihright hright, repeatsNegative_binary_iff, not_or]
  | repeated count body ih =>
    rw [phraseAt, repeatsNegative_repeated_iff]
    cases hnegative : body.isNegative with
    | true =>
      -- The phrase is an operation between the count and the digits of the body.
      refine iff_of_false ?_ (not_not_intro (.inl rfl))
      rw [if_pos rfl, ofPhrase, ofPhrase]
      intro hread
      obtain ⟨left, -, hread⟩ := bind_eq_ok_iff.mp hread
      obtain ⟨right, -, hread⟩ := bind_eq_ok_iff.mp hread
      exact ofOperation_ne_repeated hread
    | false =>
      rw [if_neg Bool.false_ne_true, ofPhrase_repetition_eq_ok_iff h, ofPhrase_asList, ih h.1]
      simp only [Bool.false_eq_true, false_or]
  | sequence items ih =>
    have hitems := areItems_iff.mp h.1
    rw [phraseAt, ofPhrase_sequence_eq_ok_iff h (length_phrasesOfAll position items),
      ofPhrases_phrasesOfAll_eq_ok_iff fun item hitem => ih item hitem (hitems item hitem).1,
      repeatsNegative_sequence_iff]
    simp only [not_exists, not_and]

theorem ofPhrase_phrase (e : Expr) : ofPhrase e.phrase = ofPhrase (e.phraseAt 0) := by
  unfold phrase
  split
  · rfl
  · rw [ofPhrase_sequence_singleton, ofPhrase_asList]

theorem compile_text {e : Expr} (h : e.WellFormed) :
    compile e.text = (ofPhrase (e.phraseAt 0)).mapError .meaning := by
  unfold compile
  rw [readPhrase_text h, ← ofPhrase_phrase]
  rfl

/-- A canonical text means the expression that it was written for, if and only if no negative
constant is repeated in it. -/
theorem compile_text_eq_ok_iff {e : Expr} (h : e.IsBuilt) :
    compile e.text = .ok e ↔ ¬ e.RepeatsNegative := by
  have hfit := wellFormed_of_isBuilt h
  rw [compile_text hfit, mapError_eq_ok_iff, ofPhrase_phraseAt_eq_ok_iff hfit]

-- A sequence with all the shapes whose texts are delicate: numbers at both ends of the range,
-- negative operands and items, nested repetitions and both kinds of dice.
def delicate : Expr :=
  .sequence [
    .binary .sub (.constant Word.least) (.binary .div (.constant Word.greatest) (.constant (-1))),
    .repeated 2 (.repeated 3 (.selected .dropLowest 1 { count := 4, sides := 6 })),
    .constant (-7),
    .repeated 2 (.binary .mul (.constant (-3)) (.dice { count := 2, sides := 3, kind := .fudge }))]

theorem compile_text_delicate :
    delicate.IsBuilt ∧ compile delicate.text = .ok delicate ∧ ¬ delicate.RepeatsNegative := by
  have hpool : (Pool.mk 4 6 .standard).WellFormed :=
    ⟨by decide, by decide, by decide, by decide, fun h => (nomatch h)⟩
  have hfudge : (Pool.mk 2 3 .fudge).WellFormed :=
    ⟨by decide, by decide, by decide, by decide, fun _ => rfl⟩
  have hfit : delicate.WellFormed := by
    simp only [delicate, WellFormed, AreItems, hpool, hfudge]
    decide
  have hbuilt : delicate.IsBuilt := isBuilt_of_wellFormed hfit
  have hnegative : ¬ delicate.RepeatsNegative := by
    simp [delicate, isNegative]
  exact ⟨hbuilt, (compile_text_eq_ok_iff hbuilt).mpr hnegative, hnegative⟩

/-- What becomes of the exception: the text of a repeated negative constant means a difference. -/
theorem compile_text_repeated_negative {count value : Int} (hpos : 1 ≤ count)
    (hle : count ≤ maxRepetitions) (hvalue : value < 0) (hleast : Word.least < value) :
    compile (repeated count (constant value)).text =
      .ok (.binary .sub (.constant count) (.constant (-value))) := by
  have hload : count * 1 ≤ maxWork := by
    simp only [maxWork, maxRepetitions] at hle ⊢
    omega
  have hbounds : Word.Fits value ∧ Word.Fits count ∧ Word.Fits (-value) := by
    simp only [Word.Fits, Word.least, Word.greatest, maxRepetitions] at hle hleast ⊢
    omega
  obtain ⟨hbody, hcount, hopposite⟩ := hbounds
  have hfit : (repeated count (constant value)).WellFormed := ⟨hbody, hpos, hle, rfl, hload⟩
  have hnegative : (constant value).isNegative = true := decide_eq_true hvalue
  have hdigits : (constant value).text.tail = Decimal.ofInt (-value) := by
    rw [text, Decimal.ofInt_of_neg hvalue, Decimal.ofInt_of_nonneg (by omega), Int.natAbs_neg]
    rfl
  rw [compile_text hfit, phraseAt, if_pos hnegative, ofPhrase, hdigits, mapError_eq_ok_iff]
  exact (@ofPhrase_operation_eq_ok_iff .sub _ _ _ _ _ rfl rfl).mpr
    ⟨ofPhrase_integer hcount _, ofPhrase_integer hopposite _⟩

end DiceFormula.Expr
