import DiceFormula.Formula
import DiceFormula.Proofs.Lexemes
import DiceFormula.Proofs.Lexing
import Mathlib

/-!
# Tokens are the longest lexemes

What is found in front of a text is at least as long as every lexeme that stands there, so a text is
scanned into its longest lexemes, and scanning stops exactly where no lexeme stands in front.
-/

namespace DiceFormula.Lexer

/-! ## 1. Every lexeme in front is found -/

/-- What is found in front of a text is as long as the lexeme, or longer, and of its kind in the
first case. -/
def Covers (kind : Kind) (lexeme text : Bytes) : Prop :=
  ∃ b rest found length, text = b :: rest ∧ isBlank b = false ∧
    first b rest = (.ok found, length) ∧ lexeme.length ≤ length ∧
    (length = lexeme.length → found = kind)

theorem covers_singleByte {kind : Kind} {b : UInt8} (h : singleByte? b = some kind) (rest : Bytes) :
    Covers kind [b] (b :: rest) := by
  obtain ⟨_, _, hcons, hblank, hfirst⟩ := found_singleByte h rest
  obtain ⟨rfl, rfl⟩ := List.cons.inj hcons
  exact ⟨b, rest, kind, 1, rfl, hblank, hfirst, Nat.le_refl 1, fun _ => rfl⟩

theorem covers_number {digits : Bytes} (hne : digits ≠ []) (h : ∀ b ∈ digits, isDigit b = true)
    (rest : Bytes) : Covers .number digits (digits ++ rest) := by
  obtain ⟨b, others, rfl, hblank, hfirst⟩ := first_of_digits hne h rest
  have hcount := digitCount_append h rest
  rw [numberOrRoll_eq] at hfirst
  refine ⟨b, others ++ rest, _, _, rfl, hblank, hfirst, by omega, fun hlength => ?_⟩
  rw [if_pos (by omega)]

theorem word_of_sidesLength {text : Bytes} (h : sidesLength text ≠ 0) :
    word text = (.ok .roll, sidesLength text) := by
  unfold word
  split
  next first second rest hnone => exact absurd hnone h
  next text _ hnone => exact absurd hnone h
  next => rfl

/-- Digits and sides are found as a whole, whether there are digits or not. -/
theorem covers_roll {count sides rest : Bytes} {d : UInt8}
    (hcount : ∀ b ∈ count, isDigit b = true) (hd : lower d = ascii 'd')
    (hsides : sides.length < sidesLength (d :: (sides ++ rest))) :
    Covers .roll (count ++ d :: sides) (count ++ d :: sides ++ rest) := by
  have hletter := isLetter_of_lower d (.inr hd)
  obtain ⟨hblank, -, hdigit⟩ := byte_of_isLetter d hletter
  have hlength : (count ++ d :: sides).length ≤
      count.length + sidesLength (d :: (sides ++ rest)) := by
    rw [List.length_append, List.length_cons]
    omega
  rw [List.append_assoc, List.cons_append]
  by_cases hne : count = []
  · subst hne
    rw [List.length_nil, Nat.zero_add] at hlength
    have hword := word_of_sidesLength (Nat.ne_zero_of_lt hsides)
    exact ⟨d, sides ++ rest, .roll, _, rfl, hblank, (first_of_isLetter hletter _).trans hword,
      hlength, fun _ => rfl⟩
  · have hdigits := digitCount_cons_of_not_isDigit hdigit (sides ++ rest)
    obtain ⟨b, others, rfl, hb, hfirst⟩ := first_of_digits hne hcount (d :: (sides ++ rest))
    rw [numberOrRoll_append hcount hdigits, if_neg (by omega)] at hfirst
    exact ⟨b, _, .roll, _, rfl, hb, hfirst, hlength, fun _ => rfl⟩

theorem covers_directive {first second : UInt8} {amount : Bytes}
    (hfirst : lower first = ascii 'k' ∨ lower first = ascii 'd')
    (hsecond : lower second = ascii 'h' ∨ lower second = ascii 'l') (hne : amount ≠ [])
    (h : ∀ b ∈ amount, isDigit b = true) (rest : Bytes) :
    Covers .directive (first :: second :: amount) (first :: second :: amount ++ rest) := by
  have hletter := isLetter_of_lower first hfirst
  have hword := word_of_directive hfirst hsecond hne h rest
  refine ⟨first, second :: (amount ++ rest), .directive, _, rfl, (byte_of_isLetter first hletter).1,
    (first_of_isLetter hletter _).trans hword, ?_, fun _ => rfl⟩
  rw [List.length_cons, List.length_cons]
  omega

/-- No lexeme in front of a text is overlooked. -/
theorem covers_of_lexeme {kind : Kind} {lexeme : Bytes} (h : Lexeme kind lexeme) (rest : Bytes) :
    Covers kind lexeme (lexeme ++ rest) := by
  cases h with
  | plus | minus | star | slash | openParen | closeParen | comma =>
    exact covers_singleByte rfl rest
  | number hne hdigits => exact covers_number hne hdigits rest
  | sided hcount hd hne hsides =>
    refine covers_roll hcount hd ?_
    rw [sidesLength_digits hd hne hsides]
    omega
  | @fudge count d f hcount hd hf =>
    refine covers_roll hcount hd ?_
    rw [List.cons_append, sidesLength_of_lower hd hf]
    exact Nat.lt_succ_self 1
  | directive hfirst hsecond hne hamount => exact covers_directive hfirst hsecond hne hamount rest

/-! ## 2. The first token -/

theorem digitCount_le (text : Bytes) : digitCount text ≤ text.length :=
  (List.takeWhile_prefix isDigit).length_le

theorem sidesLength_le (text : Bytes) : sidesLength text ≤ text.length := by
  match text with
  | [] | [_] => exact Nat.zero_le _
  | d :: b :: rest =>
    have := digitCount_le (b :: rest)
    unfold sidesLength
    simp only [List.length_cons] at this ⊢
    split_ifs <;> omega

theorem word_length_le {text : Bytes} {answer : Except Complaint Kind} {length : Nat}
    (h : word text = (answer, length)) : length ≤ text.length := by
  unfold word at h
  split at h
  next first second rest _ =>
    have hcount := digitCount_le rest
    simp only [List.length_cons]
    split at h
    next =>
      split at h
      next =>
        obtain ⟨-, rfl⟩ := Prod.mk.inj h
        omega
      next =>
        obtain ⟨-, rfl⟩ := Prod.mk.inj h
        omega
    next =>
      obtain ⟨-, rfl⟩ := Prod.mk.inj h
      exact Nat.zero_le _
  next =>
    obtain ⟨-, rfl⟩ := Prod.mk.inj h
    exact Nat.zero_le _
  next =>
    obtain ⟨-, rfl⟩ := Prod.mk.inj h
    exact sidesLength_le _

/-- No more is found than stands there. -/
theorem first_length_le {b : UInt8} {rest : Bytes} {answer : Except Complaint Kind} {length : Nat}
    (h : first b rest = (answer, length)) : length ≤ (b :: rest).length := by
  by_cases hdigit : isDigit b = true
  · rw [first_of_isDigit hdigit, numberOrRoll_eq] at h
    obtain ⟨-, rfl⟩ := Prod.mk.inj h
    have hcount := digitCount_le (b :: rest)
    have hsides := sidesLength_le ((b :: rest).drop (digitCount (b :: rest)))
    rw [List.length_drop] at hsides
    omega
  · by_cases hletter : isLetter b = true
    · rw [first_of_isLetter hletter] at h
      exact word_length_le h
    · unfold first at h
      split at h
      next =>
        obtain ⟨-, rfl⟩ := Prod.mk.inj h
        exact Nat.succ_le_succ (Nat.zero_le _)
      next =>
        rw [if_neg hdigit, if_neg hletter] at h
        obtain ⟨-, rfl⟩ := Prod.mk.inj h
        exact Nat.zero_le _

theorem longest_of_first {b : UInt8} {rest : Bytes} {kind : Kind} {length : Nat}
    (h : first b rest = (.ok kind, length)) :
    Lexeme.Longest kind ((b :: rest).take length)
      ((b :: rest).take length ++ (b :: rest).drop length) := by
  rw [List.take_append_drop]
  refine ⟨lexeme_of_first h, List.take_prefix _ _, ?_⟩
  rintro kind' longer hlonger ⟨others, hothers⟩
  obtain ⟨_, _, found, covered, hcons, -, hfirst, hle, -⟩ := covers_of_lexeme hlonger others
  obtain ⟨rfl, rfl⟩ := List.cons.inj (hothers.symm.trans hcons)
  obtain ⟨-, rfl⟩ := Prod.mk.inj (hfirst.symm.trans h)
  rw [List.length_take, Nat.min_eq_left (first_length_le h)]
  exact hle

/-- The longest lexeme in front is what is found. -/
theorem found_of_longest {kind : Kind} {lexeme rest : Bytes}
    (h : Lexeme.Longest kind lexeme (lexeme ++ rest)) : Found kind lexeme rest := by
  obtain ⟨b, others, found, length, hcons, hblank, hfirst, hle, hkind⟩ :=
    covers_of_lexeme h.isLexeme rest
  have hlongest := h.longest found ((b :: others).take length) (lexeme_of_first hfirst)
    (hcons ▸ List.take_prefix _ _)
  rw [List.length_take, Nat.min_eq_left (first_length_le hfirst)] at hlongest
  have hlength : length = lexeme.length := Nat.le_antisymm hlongest hle
  have hpos := first_length_pos hfirst
  obtain ⟨c, tail, rfl⟩ := List.exists_cons_of_length_pos (hlength ▸ hpos)
  obtain ⟨rfl, rfl⟩ := List.cons.inj hcons
  rw [hkind hlength, hlength] at hfirst
  exact ⟨c, tail, rfl, hblank, hfirst⟩

theorem noneInFront_of_first {b : UInt8} {rest : Bytes} {complaint : Complaint} {length : Nat}
    (h : first b rest = (.error complaint, length)) : Lexeme.NoneInFront (b :: rest) := by
  rintro kind lexeme hlexeme ⟨others, hothers⟩
  obtain ⟨_, _, found, covered, hcons, -, hfirst, -, -⟩ := covers_of_lexeme hlexeme others
  obtain ⟨rfl, rfl⟩ := List.cons.inj (hothers.symm.trans hcons)
  exact nomatch hfirst.symm.trans h

theorem exists_complaint_of_noneInFront {b : UInt8} {rest : Bytes}
    (h : Lexeme.NoneInFront (b :: rest)) :
    ∃ complaint length, first b rest = (.error complaint, length) := by
  cases hfirst : first b rest with
  | mk answer length =>
    cases answer with
    | ok kind => exact absurd (List.take_prefix _ _) (h kind _ (lexeme_of_first hfirst))
    | error complaint => exact ⟨complaint, length, rfl⟩

theorem isDirectiveStart_iff (first second : UInt8) :
    isDirectiveStart first second = true ↔
      (lower first = ascii 'k' ∨ lower first = ascii 'd') ∧
        (lower second = ascii 'h' ∨ lower second = ascii 'l') := by
  simp only [isDirectiveStart, Bool.and_eq_true, Bool.or_eq_true, beq_iff_eq]

/-- Only the two letters of a directive without digits are used up before a complaint. -/
theorem cases_of_first_error {b : UInt8} {rest : Bytes} {complaint : Complaint} {length : Nat}
    (h : first b rest = (.error complaint, length)) :
    (complaint = .missingAmount ∧ length = 2 ∧ ∃ second others, rest = second :: others ∧
        isDirectiveStart b second = true ∧ digitCount others = 0) ∨
      (complaint ≠ .missingAmount ∧ length = 0 ∧
        ∀ second others, rest = second :: others → isDirectiveStart b second = false) := by
  by_cases hdigit : isDigit b = true
  · rw [first_of_isDigit hdigit] at h
    cases h
  · by_cases hletter : isLetter b = true
    · rw [first_of_isLetter hletter] at h
      unfold word at h
      split at h
      next hcons =>
        obtain ⟨rfl, rfl⟩ := List.cons.inj hcons
        split at h
        next hstart =>
          split at h
          next hcount =>
            cases h
            exact .inl ⟨rfl, rfl, _, _, rfl, hstart, hcount⟩
          next => cases h
        next hstart =>
          cases h
          refine .inr ⟨Complaint.noConfusion, rfl, fun _ _ hrest => ?_⟩
          rw [← (List.cons.inj hrest).1]
          exact Bool.eq_false_iff.mpr hstart
      next _ hshort =>
        cases h
        exact .inr ⟨Complaint.noConfusion, rfl,
          fun _ _ hrest => absurd (congrArg (b :: ·) hrest) (hshort b _ _)⟩
      next => cases h
    · unfold first at h
      split at h
      next => cases h
      next =>
        rw [if_neg hdigit, if_neg hletter] at h
        cases h
        refine .inr ⟨Complaint.noConfusion, rfl, fun second _ _ => Bool.eq_false_iff.mpr fun hstart => ?_⟩
        exact hletter (isLetter_of_lower b ((isDirectiveStart_iff b second).mp hstart).1)

/-- How far a text without a lexeme in front is read depends on the two bytes in front only. -/
theorem length_eq_faultOffset {b : UInt8} {rest : Bytes} {complaint : Complaint} {length : Nat}
    (h : first b rest = (.error complaint, length)) : length = faultOffset (b :: rest) := by
  obtain ⟨-, rfl, second, others, rfl, hstart, -⟩ | ⟨-, rfl, hnone⟩ := cases_of_first_error h
  · exact (if_pos ((isDirectiveStart_iff b second).mp hstart)).symm
  · cases rest with
    | nil => rfl
    | cons second others =>
      refine (if_neg fun hstart => ?_).symm
      exact Bool.eq_false_iff.mp (hnone second others rfl) ((isDirectiveStart_iff b second).mpr hstart)

/-! ## 3. All tokens -/

theorem exists_gap (text : Bytes) :
    ∃ gap rest, text = gap ++ rest ∧ (∀ b ∈ gap, isBlank b = true) ∧
      ∀ b ∈ rest.head?, isBlank b = false := by
  refine ⟨text.takeWhile isBlank, text.dropWhile isBlank, List.takeWhile_append_dropWhile.symm,
    fun _ hb => List.mem_takeWhile_imp hb, fun b hb => ?_⟩
  have hhead := List.head?_dropWhile_not isBlank text
  rw [hb] at hhead
  exact hhead

/-- The longest lexemes of a text are its tokens. -/
theorem scan_of_tokenized {position : Nat} {text : Bytes} {tokens : List Token}
    (h : Tokenized position text tokens) : (scan position text).1 = .ok tokens := by
  induction h with
  | @finish position gap hgap =>
    have hstep : step position gap = .blank (position + gap.length) := by
      unfold step
      rw [List.takeWhile_eq_self_iff.mpr hgap, List.dropWhile_eq_nil_iff.mpr hgap]
    rw [scan_eq, hstep]
  | @token position gap lexeme rest kind tokens hgap hlongest _ ih =>
    refine scan_of_found (found_of_longest hlongest) ih hgap ?_ rfl rfl
    cases gap <;> rfl

/-- A complaint is made where the text gets stuck. -/
theorem scan_of_blocked {position stop : Nat} {text rest : Bytes}
    (h : Blocked position text stop rest) :
    ∃ fault, (scan position text).1 = .error fault ∧ fault.position = stop + faultOffset rest := by
  induction h with
  | @here position gap rest b hgap hb hnone =>
    obtain ⟨complaint, length, hfirst⟩ := exists_complaint_of_noneInFront hnone
    rw [scan_eq, step_append hgap hb, hfirst, ← length_eq_faultOffset hfirst]
    exact ⟨_, rfl, rfl⟩
  | @later position stop gap lexeme rest left kind hgap hlongest _ ih =>
    obtain ⟨fault, hscan, hposition⟩ := ih
    rw [scan_eq, step_of_found (found_of_longest hlongest) hgap]
    dsimp only
    rw [hscan]
    exact ⟨fault, rfl, hposition⟩

/-- Every text is cut into longest lexemes, or gets stuck. -/
theorem tokenized_or_blocked (position : Nat) (text : Bytes) :
    (∃ tokens, Tokenized position text tokens) ∨ ∃ stop rest, Blocked position text stop rest := by
  -- What is left behind a lexeme is shorter.
  induction hn : text.length using Nat.strong_induction_on generalizing position text with
  | _ n ih =>
    obtain ⟨gap, rest, rfl, hgap, hrest⟩ := exists_gap text
    cases rest with
    | nil =>
      rw [List.append_nil]
      exact .inl ⟨_, .finish hgap⟩
    | cons b others =>
      cases hfirst : first b others with
      | mk answer length =>
        cases answer with
        | error complaint =>
          exact .inr ⟨_, _, .here hgap (hrest b rfl) (noneInFront_of_first hfirst)⟩
        | ok kind =>
          have hpos := first_length_pos hfirst
          have hlongest := longest_of_first hfirst
          have hshorter : ((b :: others).drop length).length < n := by
            rw [← hn, List.length_append, List.length_drop, List.length_cons]
            omega
          rw [← List.take_append_drop length (b :: others)]
          obtain ⟨tokens, htokens⟩ | ⟨stop, left, hblocked⟩ := ih _ hshorter _ _ rfl
          · exact .inl ⟨_, .token hgap hlongest htokens⟩
          · exact .inr ⟨_, _, .later hgap hlongest hblocked⟩

/-! ## 4. The layout of the tokens -/

theorem layout_finish {gap : Bytes} (hgap : ∀ b ∈ gap, isBlank b = true) (position : Nat) :
    Layout position gap [.endMark (position + gap.length)] where
  ended := ⟨[], rfl, fun _ hmem => nomatch hmem⟩
  inText := by
    rw [List.forall_mem_singleton]
    exact ⟨gap, [], (List.append_nil gap).symm, rfl⟩
  inOrder := ⟨Nat.le_add_right _ _, ⟨fun h => (nomatch h), fun h => absurd rfl h.2⟩, trivial⟩
  blanks _ b hb := .inl (hgap b (List.mem_of_getElem? hb))

/-- The layout of the tokens behind a lexeme is that of all of them, moved by what is in front. -/
theorem layout_token {position : Nat} {gap lexeme rest : Bytes} {kind : Kind} {tokens : List Token}
    (h : Layout (position + gap.length + lexeme.length) rest tokens)
    (hgap : ∀ b ∈ gap, isBlank b = true) (hkind : kind ≠ .finish) :
    Layout position (gap ++ (lexeme ++ rest))
      ({ kind := kind, text := lexeme, position := position + gap.length,
         spaced := !gap.isEmpty } :: tokens) where
  ended := by
    obtain ⟨front, rfl, hfront⟩ := h.ended
    refine ⟨⟨kind, lexeme, position + gap.length, !gap.isEmpty⟩ :: front, ?_,
      List.forall_mem_cons.mpr ⟨hkind, hfront⟩⟩
    rw [List.length_append, List.length_append, ← Nat.add_assoc, ← Nat.add_assoc]
    rfl
  inText := by
    refine List.forall_mem_cons.mpr ⟨⟨gap, rest, rfl, rfl⟩, fun token htoken => ?_⟩
    obtain ⟨front, back, rfl, hposition⟩ := h.inText token htoken
    refine ⟨gap ++ (lexeme ++ front), back, ?_, ?_⟩
    · simp only [List.append_assoc]
    · rw [hposition, List.length_append, List.length_append]
      omega
  inOrder := by
    refine ⟨Nat.le_add_right _ _, ?_, h.inOrder⟩
    cases gap with
    | nil => exact ⟨fun hspaced => (nomatch hspaced), fun hgap => absurd hgap.1 (Nat.lt_irrefl _)⟩
    | cons b gap => exact ⟨fun _ => ⟨Nat.lt_add_of_pos_right (Nat.succ_pos _), hkind⟩, fun _ => rfl⟩
  blanks index b hb := by
    rw [List.getElem?_append] at hb
    split at hb
    next => exact .inl (hgap b (List.mem_of_getElem? hb))
    next hpast =>
      rw [List.getElem?_append] at hb
      split at hb
      next hlexeme =>
        refine .inr ⟨_, List.mem_cons_self, ?_, ?_⟩
        · dsimp only
          omega
        · unfold Token.stop
          dsimp only
          omega
      next =>
        obtain hblank | ⟨token, htoken, hstart, hstop⟩ := h.blanks _ b hb
        · exact .inl hblank
        · exact .inr ⟨token, List.mem_cons_of_mem _ htoken, by omega, by omega⟩

theorem layout_of_tokenized {position : Nat} {text : Bytes} {tokens : List Token}
    (h : Tokenized position text tokens) : Layout position text tokens := by
  induction h with
  | finish hgap => exact layout_finish hgap _
  | token hgap hlongest _ ih => exact layout_token ih hgap (kind_ne_finish_of_lexeme hlongest.isLexeme)

/-! ## 5. Every text -/

/-- A text has exactly the tokens that cutting off the longest lexeme again and again yields, and
they lie in the text one behind the other with nothing but blanks around them. There is a complaint
exactly if a rest that is not blank begins with no lexeme, at the place of that rest or, behind the
two letters of a directive, two bytes later. -/
theorem tokensOf_longest (text : Bytes) :
    (∀ tokens, tokensOf text = .ok tokens ↔ Tokenized 0 text tokens) ∧
      (∀ tokens, tokensOf text = .ok tokens → Layout 0 text tokens) ∧
      ∀ place, (∃ fault, tokensOf text = .error fault ∧ fault.position = place) ↔
        ∃ stop rest, Blocked 0 text stop rest ∧ place = stop + faultOffset rest := by
  have htokens (tokens : List Token) : tokensOf text = .ok tokens ↔ Tokenized 0 text tokens := by
    refine ⟨fun h => ?_, scan_of_tokenized⟩
    obtain ⟨others, hothers⟩ | ⟨stop, rest, hblocked⟩ := tokenized_or_blocked 0 text
    · obtain rfl := Except.ok.inj (h.symm.trans (scan_of_tokenized hothers))
      exact hothers
    · obtain ⟨fault, hfault, -⟩ := scan_of_blocked hblocked
      exact nomatch h.symm.trans hfault
  refine ⟨htokens, fun tokens h => layout_of_tokenized ((htokens tokens).mp h), fun place => ?_⟩
  constructor
  · rintro ⟨fault, h, rfl⟩
    obtain ⟨tokens, htokens⟩ | ⟨stop, rest, hblocked⟩ := tokenized_or_blocked 0 text
    · exact nomatch h.symm.trans (scan_of_tokenized htokens)
    · obtain ⟨other, hother, hposition⟩ := scan_of_blocked hblocked
      obtain rfl := Except.error.inj (h.symm.trans hother)
      exact ⟨stop, rest, hblocked, hposition⟩
  · rintro ⟨stop, rest, hblocked, rfl⟩
    exact scan_of_blocked hblocked

/-- The same letter begins the sides of one roll, a directive, and the sides of another roll. A
directive without its amount is noticed behind both of its letters. -/
theorem tokensOf_longest_delicate :
    Tokenized 0 (bytes "4d6dl1 2dF") [⟨.roll, bytes "4d6", 0, false⟩, ⟨.directive, bytes "dl1", 3, false⟩,
        ⟨.roll, bytes "2dF", 7, true⟩, .endMark 10] ∧
      ∃ stop rest, Blocked 0 (bytes "4 dl") stop rest ∧ 4 = stop + faultOffset rest := by
  have htokens : tokensOf (bytes "4d6dl1 2dF") = .ok [⟨.roll, bytes "4d6", 0, false⟩,
      ⟨.directive, bytes "dl1", 3, false⟩, ⟨.roll, bytes "2dF", 7, true⟩, .endMark 10] := by cbv
  have hfault : tokensOf (bytes "4 dl") = .error ⟨.missingAmount, 4⟩ := by cbv
  exact ⟨((tokensOf_longest _).1 _).mp htokens, ((tokensOf_longest _).2.2 4).mp ⟨_, hfault, rfl⟩⟩

end DiceFormula.Lexer
