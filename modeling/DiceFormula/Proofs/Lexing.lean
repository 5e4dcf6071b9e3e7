import DiceFormula.Proofs.Decimal
import DiceFormula.Token.Lexer
import DiceFormula.Expr.Basic

/-!
# Tokens in front of a text

A lexeme is found in front of a text as a whole if nothing behind it goes on with it. A text without
digits, letters or other bytes of a word in front never does; in particular blanks and the bytes
that are tokens of their own do not.
-/

namespace DiceFormula.Lexer

/-! ## 1. Digits and letters in front -/

theorem byte_of_isDigit : ∀ b : UInt8, isDigit b = true →
    isBlank b = false ∧ singleByte? b = none ∧ lower b ≠ ascii 'f' := by
  decide +kernel

theorem byte_of_isLetter : ∀ b : UInt8, isLetter b = true →
    isBlank b = false ∧ singleByte? b = none ∧ isDigit b = false := by
  decide +kernel

theorem isLetter_of_lower : ∀ b : UInt8, lower b = ascii 'k' ∨ lower b = ascii 'd' →
    isLetter b = true := by
  decide +kernel

theorem byte_of_directiveEnd : ∀ b : UInt8, lower b = ascii 'h' ∨ lower b = ascii 'l' →
    lower b ≠ ascii 'f' ∧ isDigit b = false := by
  decide +kernel

theorem first_of_isDigit {b : UInt8} (h : isDigit b = true) (rest : Bytes) :
    first b rest = (.ok (numberOrRoll (b :: rest)).1, (numberOrRoll (b :: rest)).2) := by
  obtain ⟨-, hsingle, -⟩ := byte_of_isDigit b h
  unfold first
  rw [hsingle]
  simp only [h, if_true]

theorem first_of_isLetter {b : UInt8} (h : isLetter b = true) (rest : Bytes) :
    first b rest = word (b :: rest) := by
  obtain ⟨-, hsingle, hdigit⟩ := byte_of_isLetter b h
  unfold first
  rw [hsingle]
  simp only [hdigit, h, Bool.false_eq_true, if_false, if_true]

theorem digitCount_append {digits : Bytes} (h : ∀ b ∈ digits, isDigit b = true) (rest : Bytes) :
    digitCount (digits ++ rest) = digits.length + digitCount rest := by
  unfold digitCount
  rw [List.takeWhile_append_of_pos h, List.length_append]

theorem digitCount_cons_of_not_isDigit {b : UInt8} (h : isDigit b = false) (rest : Bytes) :
    digitCount (b :: rest) = 0 := by
  rw [digitCount, List.takeWhile_cons, h]
  rfl

theorem numberOrRoll_eq (text : Bytes) :
    numberOrRoll text =
      (if sidesLength (text.drop (digitCount text)) = 0 then .number else .roll,
        digitCount text + sidesLength (text.drop (digitCount text))) := by
  unfold numberOrRoll
  dsimp only
  split
  next h => rw [h, if_pos rfl, Nat.add_zero]
  next h => rw [if_neg h]

theorem numberOrRoll_append {digits : Bytes} (h : ∀ b ∈ digits, isDigit b = true) {rest : Bytes}
    (hrest : digitCount rest = 0) :
    numberOrRoll (digits ++ rest) =
      (if sidesLength rest = 0 then .number else .roll, digits.length + sidesLength rest) := by
  rw [numberOrRoll_eq, digitCount_append h, hrest, Nat.add_zero, List.drop_left]

/-- A number or a roll is looked for where digits stand in front. -/
theorem first_of_digits {digits : Bytes} (hne : digits ≠ []) (h : ∀ b ∈ digits, isDigit b = true)
    (rest : Bytes) :
    ∃ b others, digits = b :: others ∧ isBlank b = false ∧ first b (others ++ rest) =
      (.ok (numberOrRoll (digits ++ rest)).1, (numberOrRoll (digits ++ rest)).2) := by
  obtain ⟨b, others, rfl⟩ := List.exists_cons_of_ne_nil hne
  have hb := h b List.mem_cons_self
  exact ⟨b, others, rfl, (byte_of_isDigit b hb).1, first_of_isDigit hb _⟩

theorem sidesLength_digits {d : UInt8} {sides : Bytes} (hd : lower d = ascii 'd') (hne : sides ≠ [])
    (h : ∀ b ∈ sides, isDigit b = true) (rest : Bytes) :
    sidesLength (d :: (sides ++ rest)) = 1 + (sides.length + digitCount rest) := by
  obtain ⟨b, others, rfl⟩ := List.exists_cons_of_ne_nil hne
  have hb := h b List.mem_cons_self
  obtain ⟨-, -, hfudge⟩ := byte_of_isDigit b hb
  rw [← digitCount_append h, List.cons_append]
  simp only [sidesLength, hd, hfudge, hb, bne_self_eq_false, Bool.false_eq_true, if_false, beq_iff_eq,
    if_true]

theorem sidesLength_of_lower {d f : UInt8} (hd : lower d = ascii 'd') (hf : lower f = ascii 'f')
    (rest : Bytes) : sidesLength (d :: f :: rest) = 2 := by
  simp only [sidesLength, hd, hf, bne_self_eq_false, Bool.false_eq_true, if_false,
    beq_self_eq_true, if_true]

/-- `dh` and `dl` begin like a roll, but no sides follow the letter. -/
theorem word_of_directive {first second : UInt8} {amount : Bytes}
    (hfirst : lower first = ascii 'k' ∨ lower first = ascii 'd')
    (hsecond : lower second = ascii 'h' ∨ lower second = ascii 'l') (hne : amount ≠ [])
    (h : ∀ b ∈ amount, isDigit b = true) (rest : Bytes) :
    word (first :: second :: (amount ++ rest)) =
      (.ok .directive, 2 + (amount.length + digitCount rest)) := by
  obtain ⟨hfudge, hdigit⟩ := byte_of_directiveEnd second hsecond
  have hnone : sidesLength (first :: second :: (amount ++ rest)) = 0 := by
    simp only [sidesLength, hfudge, hdigit, beq_iff_eq, if_false, Bool.false_eq_true, ite_self]
  have hstart : isDirectiveStart first second = true := by
    simp only [isDirectiveStart, Bool.and_eq_true, Bool.or_eq_true, beq_iff_eq]
    exact ⟨hfirst, hsecond⟩
  have hpos := List.length_pos_of_ne_nil hne
  unfold word
  rw [hnone]
  simp only [hstart, if_true]
  rw [digitCount_append h]
  split
  next hzero => omega
  next => rfl

/-! ## 2. Texts that go on with no token -/

/-- A text is empty, or begins with a blank or with a token of one byte. -/
def Separated (text : Bytes) : Prop :=
  ∀ b ∈ text.head?, isBlank b = true ∨ (singleByte? b).isSome = true

theorem separated_nil : Separated [] := by
  intro b hb
  exact nomatch hb

theorem separated_cons {b : UInt8} {text : Bytes}
    (h : isBlank b = true ∨ (singleByte? b).isSome = true) : Separated (b :: text) := by
  intro c hc
  rw [List.head?_cons, Option.mem_some] at hc
  exact hc ▸ h

theorem not_isDigit_of_separator :
    ∀ b : UInt8, isBlank b = true ∨ (singleByte? b).isSome = true → isDigit b = false := by
  decide +kernel

theorem lower_ne_of_separator :
    ∀ b : UInt8, isBlank b = true ∨ (singleByte? b).isSome = true → lower b ≠ ascii 'd' := by
  decide +kernel

-- A numeral ends where such a text begins, and no sides of dice begin there.
theorem Separated.digitCount {text : Bytes} (h : Separated text) : digitCount text = 0 := by
  cases text with
  | nil => rfl
  | cons b text => exact digitCount_cons_of_not_isDigit (not_isDigit_of_separator b (h b rfl)) text

theorem Separated.sidesLength {text : Bytes} (h : Separated text) : sidesLength text = 0 := by
  match text with
  | [] => rfl
  | [_] => rfl
  | d :: b :: text =>
    have hd := lower_ne_of_separator d (h d rfl)
    simp only [Lexer.sidesLength, bne_iff_ne, ne_eq, hd, not_false_eq_true, if_true]

/-! ## 3. Lexemes -/

/-- A lexeme of some kind is what is found in front, when a text follows it. -/
def Found (kind : Kind) (lexeme text : Bytes) : Prop :=
  ∃ b rest, lexeme = b :: rest ∧ isBlank b = false ∧
    first b (rest ++ text) = (.ok kind, lexeme.length)

theorem found_singleByte {b : UInt8} {kind : Kind} (h : singleByte? b = some kind) (text : Bytes) :
    Found kind [b] text := by
  have hblank : ∀ b : UInt8, (singleByte? b).isSome = true → isBlank b = false := by decide +kernel
  refine ⟨b, [], rfl, hblank b (by rw [h]; rfl), ?_⟩
  simp only [first, h]
  rfl

theorem found_number (n : Nat) {text : Bytes} (h : Separated text) :
    Found .number (Decimal.ofNat n) text := by
  have hdigits : ∀ b ∈ Decimal.ofNat n, isDigit b = true := Decimal.isDigit_of_mem_ofNat
  obtain ⟨b, others, hcons, hblank, hfirst⟩ :=
    first_of_digits (Decimal.ofNat_ne_nil n) hdigits text
  rw [numberOrRoll_append hdigits h.digitCount, h.sidesLength, if_pos rfl] at hfirst
  exact ⟨b, others, hcons, hblank, hfirst⟩

/-- The sides of standard dice. -/
theorem sidesLength_standard (n : Nat) {text : Bytes} (h : Separated text) :
    sidesLength (ascii 'd' :: (Decimal.ofNat n ++ text)) = 1 + (Decimal.ofNat n).length := by
  have hd : lower (ascii 'd') = ascii 'd' := by decide
  rw [sidesLength_digits hd (Decimal.ofNat_ne_nil n) Decimal.isDigit_of_mem_ofNat, h.digitCount,
    Nat.add_zero]

theorem sidesLength_fudge (text : Bytes) : sidesLength (ascii 'd' :: ascii 'F' :: text) = 2 := rfl

/-- A count, the letter of a roll and its sides. -/
theorem found_roll {count : Nat} {sides text : Bytes}
    (h : sidesLength (ascii 'd' :: (sides ++ text)) = 1 + sides.length) :
    Found .roll (Decimal.ofNat count ++ ascii 'd' :: sides) text := by
  have hdigits : ∀ b ∈ Decimal.ofNat count, isDigit b = true := Decimal.isDigit_of_mem_ofNat
  -- The letter ends the count, and is itself the beginning of the sides.
  have hletter : digitCount (ascii 'd' :: (sides ++ text)) = 0 :=
    digitCount_cons_of_not_isDigit (by decide) _
  obtain ⟨b, others, hcons, hblank, hfirst⟩ :=
    first_of_digits (Decimal.ofNat_ne_nil count) hdigits (ascii 'd' :: (sides ++ text))
  rw [numberOrRoll_append hdigits hletter, h, if_neg (by omega)] at hfirst
  refine ⟨b, others ++ ascii 'd' :: sides, ?_, hblank, ?_⟩
  · rw [hcons, List.cons_append]
  · rw [List.append_assoc, List.cons_append, hfirst, List.length_append, List.length_cons,
      Nat.add_comm sides.length]

theorem found_directive (selector : Selector) (n : Nat) {text : Bytes} (h : Separated text) :
    Found .directive (selector.letters ++ Decimal.ofNat n) text := by
  obtain ⟨k, l, hletters, hk, hl⟩ : ∃ k l, selector.letters = [k, l] ∧
      (lower k = ascii 'k' ∨ lower k = ascii 'd') ∧ (lower l = ascii 'h' ∨ lower l = ascii 'l') := by
    cases selector <;> exact ⟨_, _, rfl, by decide, by decide⟩
  have hletter := isLetter_of_lower k hk
  have hword := word_of_directive hk hl (Decimal.ofNat_ne_nil n) Decimal.isDigit_of_mem_ofNat text
  refine ⟨k, l :: Decimal.ofNat n, by rw [hletters]; rfl, (byte_of_isLetter k hletter).1, ?_⟩
  rw [first_of_isLetter hletter, List.cons_append, hword, h.digitCount, hletters, List.length_append,
    Nat.add_zero]
  rfl

/-! ## 4. Scanning -/

/-- Blanks are skipped, and what follows them decides. -/
theorem step_append {gap rest : Bytes} {b : UInt8} (hgap : ∀ b ∈ gap, isBlank b = true)
    (hb : isBlank b = false) (position : Nat) :
    step position (gap ++ b :: rest) =
      match first b rest with
      | (.ok kind, length) =>
          .token { kind := kind, text := (b :: rest).take length, position := position + gap.length,
                   spaced := gap.length != 0 } ((b :: rest).drop length)
      | (.error complaint, length) =>
          .fault { complaint := complaint, position := position + gap.length + length }
            ((b :: rest).drop length) := by
  have htake : (gap ++ b :: rest).takeWhile isBlank = gap := by
    rw [List.takeWhile_append_of_pos hgap, List.takeWhile_cons, hb]
    exact List.append_nil gap
  have hdrop : (gap ++ b :: rest).dropWhile isBlank = b :: rest := by
    rw [List.dropWhile_append_of_pos hgap, List.dropWhile_cons, hb]
    rfl
  cases hfirst : first b rest with
  | mk answer length =>
    unfold step
    rw [htake, hdrop]
    cases answer <;> simp only [hfirst]

theorem step_of_found {kind : Kind} {gap lexeme text : Bytes} (hfound : Found kind lexeme text)
    (hgap : ∀ b ∈ gap, isBlank b = true) (position : Nat) :
    step position (gap ++ (lexeme ++ text)) =
      .token { kind := kind, text := lexeme, position := position + gap.length,
               spaced := gap.length != 0 } text := by
  obtain ⟨b, rest, rfl, hblank, hfirst⟩ := hfound
  rw [List.cons_append, step_append hgap hblank, hfirst]
  dsimp only
  rw [← List.cons_append, List.take_left, List.drop_left]

/-- Blanks and a lexeme become one token more. -/
theorem scan_of_found {kind : Kind} {gap lexeme text : Bytes} {tokens : List Token} {spaced : Bool}
    {position start next : Nat} (hfound : Found kind lexeme text)
    (hscan : (scan next text).1 = .ok tokens) (hgap : ∀ b ∈ gap, isBlank b = true)
    (hspaced : spaced = (gap.length != 0)) (hstart : start = position + gap.length)
    (hnext : next = start + lexeme.length) :
    (scan position (gap ++ (lexeme ++ text))).1 =
      .ok ({ kind := kind, text := lexeme, position := start, spaced := spaced } :: tokens) := by
  rw [scan_eq, step_of_found hfound hgap, hspaced, hstart]
  dsimp only
  rw [← hstart, ← hnext, hscan]
  rfl

-- The two gaps of a canonical text: none, and one blank.
theorem scan_of_found_touching {kind : Kind} {lexeme text : Bytes} {tokens : List Token}
    {position next : Nat} (hfound : Found kind lexeme text)
    (hscan : (scan next text).1 = .ok tokens) (hnext : next = position + lexeme.length) :
    (scan position (lexeme ++ text)).1 =
      .ok ({ kind := kind, text := lexeme, position := position } :: tokens) :=
  scan_of_found hfound hscan (fun _ hb => absurd hb List.not_mem_nil) (rfl : false = ((0 : Nat) != 0))
    (rfl : position = position + 0) hnext

theorem scan_of_found_spaced {kind : Kind} {lexeme text : Bytes} {tokens : List Token}
    {position next : Nat} (hfound : Found kind lexeme text)
    (hscan : (scan next text).1 = .ok tokens) (hnext : next = position + 1 + lexeme.length) :
    (scan position (ascii ' ' :: (lexeme ++ text))).1 =
      .ok ({ kind := kind, text := lexeme, position := position + 1, spaced := true } :: tokens) := by
  have hgap : ∀ b ∈ [ascii ' '], isBlank b = true := List.forall_mem_singleton.mpr (by decide)
  have hone := scan_of_found hfound hscan hgap (rfl : true = ([ascii ' '].length != 0))
    (rfl : position + 1 = position + [ascii ' '].length) hnext
  exact hone

theorem scan_nil (position : Nat) : (scan position []).1 = .ok [.endMark position] := by
  rw [scan_eq]
  rfl

end DiceFormula.Lexer
