import DiceFormula.Proofs.LongestMatch

/-!
# Tokens of joined texts

A text keeps its tokens, positions and the first gap apart, when a number and a blank, or a token of
one byte, are put in front of it and a token of one byte is put behind it. No lexeme reaches over
these joints: letters and digits are never continued by such a byte.
-/

namespace DiceFormula

/-- A token without its position. -/
def Token.unplaced (token : Token) : Token :=
  { token with position := 0 }

/-- Tokens that differ in their positions only. -/
def Alike (tokens others : List Token) : Prop :=
  tokens.map Token.unplaced = others.map Token.unplaced

namespace Lexer

/-! ## 1. Bytes that end a lexeme -/

theorem not_separator_of_word : ∀ b : UInt8, isDigit b = true ∨ isLetter b = true →
    ¬ (isBlank b = true ∨ (singleByte? b).isSome = true) := by
  decide +kernel

theorem isLetter_of_second : ∀ b : UInt8,
    (lower b = ascii 'h' ∨ lower b = ascii 'l') ∨ lower b = ascii 'f' → isLetter b = true := by
  decide +kernel

/-- A lexeme of several bytes is made of digits and letters. -/
theorem length_or_word_of_lexeme {kind : Kind} {lexeme : Bytes} (h : Lexeme kind lexeme) :
    lexeme.length = 1 ∨ ∀ b ∈ lexeme, isDigit b = true ∨ isLetter b = true := by
  cases h with
  | plus | minus | star | slash | openParen | closeParen | comma => exact .inl rfl
  | number hne hdigits => exact .inr fun b hb => .inl (hdigits b hb)
  | @sided count sides d hcount hd hne hsides =>
    refine .inr (List.forall_mem_append.mpr ⟨fun b hb => .inl (hcount b hb), ?_⟩)
    exact List.forall_mem_cons.mpr
      ⟨.inr (isLetter_of_lower d (.inr hd)), fun b hb => .inl (hsides b hb)⟩
  | @fudge count d f hcount hd hf =>
    refine .inr (List.forall_mem_append.mpr ⟨fun b hb => .inl (hcount b hb), ?_⟩)
    exact List.forall_mem_cons.mpr ⟨.inr (isLetter_of_lower d (.inr hd)),
      List.forall_mem_singleton.mpr (.inr (isLetter_of_second f (.inr hf)))⟩
  | @directive first second amount hfirst hsecond hne hamount =>
    refine .inr (List.forall_mem_cons.mpr ⟨.inr (isLetter_of_lower first hfirst), ?_⟩)
    exact List.forall_mem_cons.mpr
      ⟨.inr (isLetter_of_second second (.inl hsecond)), fun b hb => .inl (hamount b hb)⟩

theorem length_of_separator_mem {kind : Kind} {lexeme : Bytes} {b : UInt8} (h : Lexeme kind lexeme)
    (hmem : b ∈ lexeme) (hb : isBlank b = true ∨ (singleByte? b).isSome = true) :
    lexeme.length = 1 := by
  obtain hlength | hword := length_or_word_of_lexeme h
  · exact hlength
  · exact absurd hb (not_separator_of_word b (hword b hmem))

theorem length_pos_of_lexeme {kind : Kind} {lexeme : Bytes} (h : Lexeme kind lexeme) :
    1 ≤ lexeme.length := by
  obtain ⟨b, rest, _, _, hcons, -⟩ := covers_of_lexeme h []
  rw [List.append_nil] at hcons
  rw [hcons]
  exact Nat.succ_pos _

-- What reaches over a joint contains the byte that stands there.
theorem prefix_or_mem {longer front rest : Bytes} {b : UInt8} (h : longer <+: front ++ b :: rest) :
    longer <+: front ∨ b ∈ longer := by
  rcases List.prefix_or_prefix_of_prefix h (List.prefix_append front (b :: rest)) with
    hfront | ⟨back, rfl⟩
  · exact .inl hfront
  · cases back with
    | nil => exact .inl (by rw [List.append_nil])
    | cons c back =>
      rw [List.prefix_append_right_inj, List.cons_prefix_cons] at h
      exact .inr (by simp [h.1])

/-- The longest lexeme stays the longest one when a separator and any text are put behind the text
that it begins. -/
theorem longest_before {kind : Kind} {lexeme rest : Bytes} {b : UInt8}
    (h : Lexeme.Longest kind lexeme (lexeme ++ rest))
    (hb : isBlank b = true ∨ (singleByte? b).isSome = true) (more : Bytes) :
    Lexeme.Longest kind lexeme (lexeme ++ (rest ++ b :: more)) := by
  refine ⟨h.isLexeme, List.prefix_append _ _, fun kind' longer hlonger hfront => ?_⟩
  rw [← List.append_assoc] at hfront
  obtain hinside | hmem := prefix_or_mem hfront
  · exact h.longest kind' longer hlonger hinside
  · rw [length_of_separator_mem hlonger hmem hb]
    exact length_pos_of_lexeme h.isLexeme

theorem longest_singleByte {b : UInt8} {kind : Kind} (h : singleByte? b = some kind)
    (rest : Bytes) : Lexeme.Longest kind [b] ([b] ++ rest) := by
  have hfirst : first b rest = (.ok kind, 1) := by
    unfold first
    rw [h]
  exact longest_of_first hfirst

theorem longest_numeral {numeral : Bytes} (hne : numeral ≠ [])
    (hdigits : ∀ d ∈ numeral, isDigit d = true) (rest : Bytes) :
    Lexeme.Longest .number numeral (numeral ++ ascii ' ' :: rest) := by
  have halone : Lexeme.Longest .number numeral (numeral ++ []) := by
    refine ⟨.number hne hdigits, List.prefix_append _ _, fun kind' longer _ hfront => ?_⟩
    rw [List.append_nil] at hfront
    exact hfront.length_le
  exact longest_before halone (.inl (by decide)) rest

/-! ## 2. Texts at another position -/

theorem blanks_of_nil : ∀ b ∈ ([] : Bytes), isBlank b = true :=
  fun _ hmem => absurd hmem List.not_mem_nil

theorem tokenized_nil (position : Nat) : Tokenized position [] [.endMark position] :=
  .finish blanks_of_nil

/-- The tokens of a text do not depend on its position but for theirs. -/
theorem tokenized_at {position : Nat} {text : Bytes} {tokens : List Token}
    (h : Tokenized position text tokens) (start : Nat) :
    ∃ front stop others last, tokens = front ++ [.endMark stop] ∧ Alike front others ∧
      Tokenized start text (others ++ [.endMark last]) := by
  induction h generalizing start with
  | @finish position gap hgap => exact ⟨[], _, [], _, rfl, rfl, .finish hgap⟩
  | @token position gap lexeme rest kind tokens hgap hlongest _ ih =>
    obtain ⟨front, stop, others, last, rfl, halike, htokenized⟩ :=
      ih (start + gap.length + lexeme.length)
    refine ⟨_ :: front, stop, _ :: others, last, rfl, ?_, .token hgap hlongest htokenized⟩
    exact List.cons_eq_cons.mpr ⟨rfl, halike⟩

/-- A text with a token of one byte behind it has its own tokens, this token in place of the end
mark, and the tokens of what follows. -/
theorem tokenized_append {position : Nat} {text : Bytes} {tokens : List Token}
    (h : Tokenized position text tokens) {b : UInt8} {kind : Kind} (hb : singleByte? b = some kind)
    {rest : Bytes} {more : List Token} {start : Nat}
    (hmore : Tokenized (start + text.length + 1) rest more) :
    ∃ front stop others mark, tokens = front ++ [.endMark stop] ∧ Alike front others ∧
      mark.kind = kind ∧ mark.text = [b] ∧
      Tokenized start (text ++ b :: rest) (others ++ mark :: more) := by
  induction h generalizing start with
  | @finish position gap hgap =>
    exact ⟨[], _, [], _, rfl, rfl, rfl, rfl, .token hgap (longest_singleByte hb rest) hmore⟩
  | @token position gap lexeme behind lexemeKind tokens hgap hlongest _ ih =>
    have hposition : start + gap.length + lexeme.length + behind.length + 1 =
        start + (gap ++ (lexeme ++ behind)).length + 1 := by
      rw [List.length_append, List.length_append]
      omega
    rw [← hposition] at hmore
    obtain ⟨front, stop, others, mark, rfl, halike, hkind, htext, htokenized⟩ := ih hmore
    have hseparator : isBlank b = true ∨ (singleByte? b).isSome = true := by
      rw [hb]
      exact .inr rfl
    have hwhole := Tokenized.token hgap (longest_before hlongest hseparator rest) htokenized
    rw [List.append_assoc, List.append_assoc]
    refine ⟨_ :: front, stop, _ :: others, mark, rfl, ?_, hkind, htext, hwhole⟩
    exact List.cons_eq_cons.mpr ⟨rfl, halike⟩

/-! ## 3. What stands in front of a text -/

-- A lexeme without a gap in front of it.
theorem tokenized_touching {kind : Kind} {lexeme text : Bytes} {position : Nat} {tokens : List Token}
    (hlongest : Lexeme.Longest kind lexeme (lexeme ++ text))
    (h : Tokenized (position + lexeme.length) text tokens) :
    ∃ token, token.kind = kind ∧ token.text = lexeme ∧
      Tokenized position (lexeme ++ text) (token :: tokens) := by
  exact ⟨_, rfl, rfl, .token blanks_of_nil hlongest h⟩

theorem tokenized_singleByte {b : UInt8} {kind : Kind} (hb : singleByte? b = some kind)
    {position : Nat} {text : Bytes} {tokens : List Token}
    (h : Tokenized (position + 1) text tokens) :
    ∃ token, token.kind = kind ∧ token.text = [b] ∧
      Tokenized position (b :: text) (token :: tokens) :=
  tokenized_touching (longest_singleByte hb text) h

/-- A blank in front gives the first token a gap. -/
theorem tokenized_blank {position : Nat} {text : Bytes} {token : Token} {tokens : List Token}
    (h : Tokenized (position + 1) text (token :: tokens)) (htoken : token.kind ≠ .finish) :
    ∃ marked, marked.kind = token.kind ∧ marked.text = token.text ∧ marked.spaced = true ∧
      Tokenized position (ascii ' ' :: text) (marked :: tokens) := by
  cases h with
  | finish => exact absurd rfl htoken
  | @token _ gap lexeme rest kind _ hgap hlongest hrest =>
    have hmore : ∀ b ∈ ascii ' ' :: gap, isBlank b = true :=
      List.forall_mem_cons.mpr ⟨by decide, hgap⟩
    have hposition : position + 1 + gap.length = position + (ascii ' ' :: gap).length := by
      rw [List.length_cons]
      omega
    rw [hposition] at hrest
    refine ⟨_, ?_, ?_, ?_, Tokenized.token hmore hlongest hrest⟩
    · rfl
    · rfl
    · rfl

/-- A minus sign is the first token only where it is the first byte that is no blank. -/
theorem head?_of_minus {position : Nat} {text : Bytes} {token : Token} {tokens : List Token}
    (h : Tokenized position text (token :: tokens)) (hminus : token.kind = .minus) :
    (text.dropWhile isBlank).head? = some (ascii '-') := by
  cases h with
  | finish => exact nomatch hminus
  | @token _ gap lexeme rest kind _ hgap hlongest _ =>
    obtain rfl : kind = .minus := hminus
    obtain ⟨⟩ := hlongest.isLexeme
    rw [List.dropWhile_append_of_pos hgap]
    rfl

end Lexer

end DiceFormula
