import DiceFormula.Token.Lexeme
import DiceFormula.Token.Lexer
import Mathlib.Data.List.TakeWhile
import Mathlib.Tactic.SplitIfs

/-!
# Tokens are lexemes

Every token that is scanned has the written form of its kind, and the end mark is the last token and
no other one.
-/

namespace DiceFormula.Lexer

/-! ## 1. Digits and sides -/

theorem isDigit_of_mem_takeWhile {text : Bytes} :
    ∀ b ∈ text.takeWhile isDigit, isDigit b = true :=
  fun _ hb => List.mem_takeWhile_imp hb

theorem take_digitCount (text : Bytes) : text.take (digitCount text) = text.takeWhile isDigit :=
  (List.prefix_iff_eq_take.mp (List.takeWhile_prefix isDigit)).symm

theorem takeWhile_isDigit_ne_nil {b : UInt8} {rest : Bytes} (h : isDigit b = true) :
    (b :: rest).takeWhile isDigit ≠ [] := by
  rw [List.takeWhile_cons, if_pos h]
  exact List.cons_ne_nil _ _

/-- Sides make a roll of the digits in front of them. -/
theorem lexeme_of_sidesLength {count text : Bytes} (hcount : ∀ b ∈ count, isDigit b = true)
    (h : sidesLength text ≠ 0) : Lexeme .roll (count ++ text.take (sidesLength text)) := by
  match text with
  | [] | [_] => exact absurd rfl h
  | d :: b :: rest =>
    unfold sidesLength at h ⊢
    by_cases hd : lower d = ascii 'd'
    · by_cases hf : lower b = ascii 'f'
      · simp only [hd, hf, bne_self_eq_false, Bool.false_eq_true, if_false, beq_self_eq_true, if_true]
        exact .fudge hcount hd hf
      · by_cases hb : isDigit b = true
        · simp only [hd, hf, hb, bne_self_eq_false, Bool.false_eq_true, if_false, beq_iff_eq, if_true]
          rw [Nat.add_comm, List.take_succ_cons, take_digitCount]
          exact .sided hcount hd (takeWhile_isDigit_ne_nil hb) isDigit_of_mem_takeWhile
        · simp only [hd, hf, hb, bne_self_eq_false, Bool.false_eq_true, if_false, beq_iff_eq, ne_eq,
            not_true_eq_false] at h
    · simp only [hd, bne_iff_ne, ne_eq, not_false_eq_true, if_true, not_true_eq_false] at h

/-! ## 2. The first token -/

theorem lexeme_of_singleByte {b : UInt8} {kind : Kind} (h : singleByte? b = some kind) :
    Lexeme kind [b] := by
  unfold singleByte? at h
  simp only [beq_iff_eq] at h
  split_ifs at h with hb hb hb hb hb hb hb <;> obtain rfl := Option.some.inj h <;> subst hb
  exacts [.plus, .minus, .star, .slash, .openParen, .closeParen, .comma]

theorem lexeme_of_numberOrRoll {b : UInt8} {rest : Bytes} {kind : Kind} {length : Nat}
    (hb : isDigit b = true) (h : numberOrRoll (b :: rest) = (kind, length)) :
    Lexeme kind ((b :: rest).take length) := by
  unfold numberOrRoll at h
  dsimp only at h
  split at h
  next =>
    obtain ⟨rfl, rfl⟩ := Prod.mk.inj h
    rw [take_digitCount]
    exact .number (takeWhile_isDigit_ne_nil hb) isDigit_of_mem_takeWhile
  next hsides =>
    obtain ⟨rfl, rfl⟩ := Prod.mk.inj h
    rw [List.take_add, take_digitCount]
    exact lexeme_of_sidesLength isDigit_of_mem_takeWhile hsides

theorem lexeme_of_word {text : Bytes} {kind : Kind} {length : Nat}
    (h : word text = (.ok kind, length)) : Lexeme kind (text.take length) := by
  unfold word at h
  split at h
  next first second rest _ =>
    split at h
    next hstart =>
      split at h
      next => exact nomatch h
      next hamount =>
        obtain ⟨hkind, rfl⟩ := Prod.mk.inj h
        obtain rfl := Except.ok.inj hkind
        simp only [isDirectiveStart, Bool.and_eq_true, Bool.or_eq_true, beq_iff_eq] at hstart
        have hdigits : rest.takeWhile isDigit ≠ [] := fun hnil => hamount (congrArg List.length hnil)
        rw [Nat.add_comm, List.take_succ_cons, List.take_succ_cons, take_digitCount]
        exact .directive hstart.1 hstart.2 hdigits isDigit_of_mem_takeWhile
    next => exact nomatch h
  next => exact nomatch h
  next hsides _ =>
    obtain ⟨hkind, rfl⟩ := Prod.mk.inj h
    obtain rfl := Except.ok.inj hkind
    -- No count stands in front of the sides.
    have hnone : ∀ b ∈ ([] : Bytes), isDigit b = true := fun _ hb => absurd hb List.not_mem_nil
    exact lexeme_of_sidesLength hnone hsides

theorem lexeme_of_first {b : UInt8} {rest : Bytes} {kind : Kind} {length : Nat}
    (h : first b rest = (.ok kind, length)) : Lexeme kind ((b :: rest).take length) := by
  unfold first at h
  split at h
  next hsingle =>
    obtain ⟨hkind, rfl⟩ := Prod.mk.inj h
    obtain rfl := Except.ok.inj hkind
    exact lexeme_of_singleByte hsingle
  next =>
    split at h
    next hb =>
      obtain ⟨hkind, rfl⟩ := Prod.mk.inj h
      obtain rfl := Except.ok.inj hkind
      exact lexeme_of_numberOrRoll hb rfl
    next =>
      split at h
      next => exact lexeme_of_word h
      next => exact nomatch h

/-! ## 3. All tokens -/

theorem lexeme_of_step {position : Nat} {text rest : Bytes} {token : Token}
    (h : step position text = .token token rest) : Lexeme token.kind token.text := by
  unfold step at h
  dsimp only at h
  split at h
  next => exact nomatch h
  next =>
    split at h
    next hfirst =>
      obtain ⟨rfl, -⟩ := Step.token.inj h
      exact lexeme_of_first hfirst
    next => exact nomatch h

theorem kind_ne_finish_of_lexeme {kind : Kind} {text : Bytes} (h : Lexeme kind text) :
    kind ≠ .finish := by
  cases h <;> exact nofun

/-- The tokens in front of the end mark are lexemes. -/
theorem lexemes_of_scan {position : Nat} {text : Bytes} {tokens : List Token}
    (h : (scan position text).1 = .ok tokens) :
    ∃ front stop, tokens = front ++ [.endMark stop] ∧
      ∀ token ∈ front, Lexeme token.kind token.text := by
  induction position, text using scan.induct generalizing tokens with
  | case1 position text stop hstep =>
    rw [scan_eq, hstep] at h
    obtain rfl := Except.ok.inj h
    exact ⟨[], stop, rfl, fun token htoken => absurd htoken List.not_mem_nil⟩
  | case2 position text fault rest hstep =>
    rw [scan_eq, hstep] at h
    exact nomatch h
  | case3 position text token rest hstep _ _ _ _ ih =>
    rw [scan_eq, hstep] at h
    dsimp only at h
    cases hothers : (scan (token.position + token.text.length) rest).1 with
    | error fault =>
      rw [hothers] at h
      exact nomatch h
    | ok others =>
      rw [hothers] at h
      obtain rfl := Except.ok.inj h
      obtain ⟨front, stop, rfl, hfront⟩ := ih hothers
      exact ⟨token :: front, stop, rfl, List.forall_mem_cons.mpr ⟨lexeme_of_step hstep, hfront⟩⟩

end DiceFormula.Lexer
