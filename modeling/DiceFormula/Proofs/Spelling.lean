import DiceFormula.Formula
import DiceFormula.Proofs.Grammar
import DiceFormula.Proofs.Lexing
import DiceFormula.Proofs.WellFormed

/-!
# Canonical texts as tokens and phrases

The tokens of a canonical text and the phrase that they make, both read off the expression. A
negative constant is spelled as a sign and a number. Behind a repetition count that sign is read as
an operator, and the count as its left operand; everywhere else the phrase has the shape of the
expression.
-/

namespace DiceFormula

def Operator.kind : Operator → Kind
  | add => .plus
  | sub => .minus
  | mul => .star
  | div => .slash

namespace Expr

/-! ## 1. Tokens -/

-- Canonical texts byte by byte, each part in front of all that follows it.
theorem text_selected (selector : Selector) (amount : Int) (pool : Pool) :
    (selected selector amount pool).text =
      pool.text ++ ascii ' ' :: (selector.letters ++ Decimal.ofInt amount) := by
  rw [text, show bytes " " = [ascii ' '] from rfl, List.append_assoc, List.append_assoc]
  rfl

theorem text_binary (op : Operator) (left right : Expr) :
    (binary op left right).text =
      ascii '(' :: (left.text ++
        ascii ' ' :: op.symbol :: ascii ' ' :: (right.text ++ [ascii ')'])) := by
  rw [text, show bytes "(" = [ascii '('] from rfl, show bytes ")" = [ascii ')'] from rfl,
    show bytes " " = [ascii ' '] from rfl]
  simp only [List.append_assoc, List.cons_append, List.nil_append]

theorem text_repeated (count : Int) (body : Expr) :
    (repeated count body).text = Decimal.ofInt count ++ ascii ' ' :: body.text := by
  rw [text, show bytes " " = [ascii ' '] from rfl, List.append_assoc]
  rfl

theorem text_sequence_cons_cons (item next : Expr) (rest : List Expr) :
    (sequence (item :: next :: rest)).text =
      item.text ++ ascii ',' :: ascii ' ' :: (sequence (next :: rest)).text := by
  rw [text, text, texts, texts, joinWith_cons_cons, show bytes ", " = [ascii ',', ascii ' '] from rfl,
    List.append_assoc]
  rfl

mutual

/-- The tokens of a canonical text with a given first position, the first of them behind blanks or
not. -/
def tokensAt (spaced : Bool) (position : Nat) : Expr → List Token
  | constant value =>
      if value < 0 then
        [{ kind := .minus, text := [ascii '-'], position := position, spaced := spaced },
          { kind := .number, text := Decimal.ofNat value.natAbs, position := position + 1 }]
      else
        [{ kind := .number, text := Decimal.ofNat value.natAbs, position := position,
           spaced := spaced }]
  | dice pool => [{ kind := .roll, text := pool.text, position := position, spaced := spaced }]
  | selected selector amount pool =>
      [{ kind := .roll, text := pool.text, position := position, spaced := spaced },
        { kind := .directive, text := selector.letters ++ Decimal.ofInt amount,
          position := position + pool.text.length + 1, spaced := true }]
  | binary op left right =>
      { kind := .openParen, text := [ascii '('], position := position, spaced := spaced } ::
        (left.tokensAt false (position + 1) ++
          { kind := op.kind, text := [op.symbol], position := position + left.text.length + 2,
            spaced := true } ::
          right.tokensAt true (position + left.text.length + 4) ++
          [{ kind := .closeParen, text := [ascii ')'],
             position := position + left.text.length + 4 + right.text.length }])
  | repeated count body =>
      { kind := .number, text := Decimal.ofInt count, position := position, spaced := spaced } ::
        body.tokensAt true (position + (Decimal.ofInt count).length + 1)
  | sequence items => tokensOfAll spaced position items

def tokensOfAll (spaced : Bool) (position : Nat) : List Expr → List Token
  | [] => []
  | [item] => item.tokensAt spaced position
  | item :: next :: rest =>
      item.tokensAt spaced position ++
        { kind := .comma, text := [ascii ','], position := position + item.text.length } ::
        tokensOfAll true (position + item.text.length + 2) (next :: rest)

end

/-- In front of a text that goes on with no token, a canonical text is cut into its tokens. -/
def Scans (e : Expr) : Prop :=
  ∀ (gap text : Bytes) (tokens : List Token) (spaced : Bool) (position start next : Nat),
    Lexer.Separated text → (Lexer.scan next text).1 = .ok tokens → (∀ b ∈ gap, isBlank b = true) →
    spaced = (gap.length != 0) → start = position + gap.length → next = start + e.text.length →
    (Lexer.scan position (gap ++ (e.text ++ text))).1 = .ok (e.tokensAt spaced start ++ tokens)

theorem Scans.touching {e : Expr} (h : Scans e) {text : Bytes} {tokens : List Token}
    {position next : Nat} (htext : Lexer.Separated text)
    (hscan : (Lexer.scan next text).1 = .ok tokens) (hnext : next = position + e.text.length) :
    (Lexer.scan position (e.text ++ text)).1 = .ok (e.tokensAt false position ++ tokens) :=
  h [] text tokens false position position next htext hscan
    (fun _ hb => absurd hb List.not_mem_nil) (rfl : false = ((0 : Nat) != 0))
    (rfl : position = position + 0) hnext

theorem Scans.spaced {e : Expr} (h : Scans e) {text : Bytes} {tokens : List Token}
    {position next : Nat} (htext : Lexer.Separated text)
    (hscan : (Lexer.scan next text).1 = .ok tokens) (hnext : next = position + 1 + e.text.length) :
    (Lexer.scan position (ascii ' ' :: (e.text ++ text))).1 =
      .ok (e.tokensAt true (position + 1) ++ tokens) := by
  have hgap : ∀ b ∈ [ascii ' '], isBlank b = true := List.forall_mem_singleton.mpr (by decide)
  have hone := h [ascii ' '] text tokens true position (position + 1) next htext hscan hgap
    (rfl : true = ([ascii ' '].length != 0)) (rfl : position + 1 = position + [ascii ' '].length)
    hnext
  exact hone

-- One lemma for each shape: the tokens are put in front of those of the rest, the last one first.
theorem scans_constant (value : Int) : Scans (.constant value) := by
  intro gap text tokens spaced position start next htext hscan hgap hspaced hstart hnext
  rw [Expr.text] at hnext ⊢
  rw [tokensAt]
  by_cases hvalue : value < 0
  · rw [Decimal.ofInt_of_neg hvalue] at hnext ⊢
    rw [if_pos hvalue]
    have hnumber : (Lexer.scan (start + 1) (Decimal.ofNat value.natAbs ++ text)).1 = _ :=
      Lexer.scan_of_found_touching (Lexer.found_number value.natAbs htext) hscan
        (by rw [hnext, List.length_cons]; omega)
    exact Lexer.scan_of_found (Lexer.found_singleByte (by decide) _) hnumber hgap hspaced hstart rfl
  · rw [Decimal.ofInt_of_nonneg (by omega)] at hnext ⊢
    rw [if_neg hvalue]
    exact Lexer.scan_of_found (Lexer.found_number value.natAbs htext) hscan hgap hspaced hstart hnext

theorem found_pool {pool : Pool} (h : pool.WellFormed) {text : Bytes} (htext : Lexer.Separated text) :
    Lexer.Found .roll pool.text text := by
  have hcount := h.count_pos
  have hsides := h.sides_pos
  unfold Pool.text
  dsimp only
  rw [Decimal.ofInt_of_nonneg (by omega), List.append_assoc]
  apply Lexer.found_roll
  cases pool.kind with
  | standard =>
    dsimp only
    rw [Decimal.ofInt_of_nonneg (by omega)]
    exact Lexer.sidesLength_standard _ htext
  | fudge => exact Lexer.sidesLength_fudge text

theorem scans_dice {pool : Pool} (h : pool.WellFormed) : Scans (.dice pool) := by
  intro gap text tokens spaced position start next htext hscan hgap hspaced hstart hnext
  exact Lexer.scan_of_found (found_pool h htext) hscan hgap hspaced hstart hnext

theorem scans_selected {selector : Selector} {amount : Int} {pool : Pool} (h : pool.WellFormed)
    (hamount : 1 ≤ amount) : Scans (.selected selector amount pool) := by
  intro gap text tokens spaced position start next htext hscan hgap hspaced hstart hnext
  rw [text_selected, Decimal.ofInt_of_nonneg (by omega)] at hnext ⊢
  rw [tokensAt, Decimal.ofInt_of_nonneg (by omega), List.append_assoc, List.cons_append]
  have hdirective : (Lexer.scan (start + pool.text.length)
      (ascii ' ' :: (selector.letters ++ Decimal.ofNat amount.natAbs ++ text))).1 = _ :=
    Lexer.scan_of_found_spaced (Lexer.found_directive selector amount.natAbs htext) hscan
      (by rw [hnext, List.length_append, List.length_cons]; omega)
  exact Lexer.scan_of_found (found_pool h (Lexer.separated_cons (.inl (by decide)))) hdirective hgap
    hspaced hstart rfl

theorem scans_binary {op : Operator} {left right : Expr} (hleft : Scans left)
    (hright : Scans right) : Scans (.binary op left right) := by
  intro gap text tokens spaced position start next htext hscan hgap hspaced hstart hnext
  rw [text_binary] at hnext ⊢
  simp only [List.length_cons, List.length_append, List.length_nil] at hnext
  have hclose : (Lexer.scan (start + left.text.length + 4 + right.text.length)
      ([ascii ')'] ++ text)).1 = _ :=
    Lexer.scan_of_found_touching (Lexer.found_singleByte (by decide : _ = some .closeParen) text) hscan
      (by rw [hnext, List.length_singleton]; omega)
  have hafter : (Lexer.scan (start + left.text.length + 3)
      (ascii ' ' :: (right.text ++ ([ascii ')'] ++ text)))).1 = _ :=
    hright.spaced (Lexer.separated_cons (.inr (by decide))) hclose (by omega)
  have hop : Lexer.Found op.kind [op.symbol] (ascii ' ' :: (right.text ++ ([ascii ')'] ++ text))) :=
    Lexer.found_singleByte (by cases op <;> decide) _
  have hsymbol : (Lexer.scan (start + left.text.length + 1)
      (ascii ' ' :: ([op.symbol] ++ ascii ' ' :: (right.text ++ ([ascii ')'] ++ text))))).1 = _ :=
    Lexer.scan_of_found_spaced hop hafter (by rw [List.length_singleton])
  have hbefore : (Lexer.scan (start + 1) (left.text ++
      ascii ' ' :: ([op.symbol] ++ ascii ' ' :: (right.text ++ ([ascii ')'] ++ text))))).1 = _ :=
    hleft.touching (Lexer.separated_cons (.inl (by decide))) hsymbol (by omega)
  have hparen : Lexer.singleByte? (ascii '(') = some .openParen := by decide
  have hopen := Lexer.scan_of_found (Lexer.found_singleByte hparen _) hbefore hgap hspaced hstart rfl
  simp only [tokensAt, List.append_assoc, List.cons_append, List.nil_append] at hopen ⊢
  exact hopen

theorem scans_repeated {count : Int} {body : Expr} (hcount : 1 ≤ count) (hbody : Scans body) :
    Scans (.repeated count body) := by
  intro gap text tokens spaced position start next htext hscan hgap hspaced hstart hnext
  rw [text_repeated, Decimal.ofInt_of_nonneg (by omega)] at hnext ⊢
  rw [tokensAt, Decimal.ofInt_of_nonneg (by omega), List.append_assoc, List.cons_append]
  have hrest : (Lexer.scan (start + (Decimal.ofNat count.natAbs).length)
      (ascii ' ' :: (body.text ++ text))).1 = _ :=
    hbody.spaced htext hscan (by rw [hnext, List.length_append, List.length_cons]; omega)
  exact Lexer.scan_of_found (Lexer.found_number count.natAbs
    (Lexer.separated_cons (.inl (by decide)))) hrest hgap hspaced hstart rfl

theorem scans_sequence {items : List Expr} (hne : items ≠ []) (h : ∀ item ∈ items, Scans item) :
    Scans (.sequence items) := by
  induction items with
  | nil => exact absurd rfl hne
  | cons item rest ih =>
    obtain ⟨hitem, hrest⟩ := List.forall_mem_cons.mp h
    cases rest with
    | nil => exact hitem
    | cons other rest =>
      intro gap text tokens spaced position start next htext hscan hgap hspaced hstart hnext
      rw [text_sequence_cons_cons] at hnext ⊢
      rw [List.append_assoc, List.cons_append, List.cons_append]
      have hothers : Scans (.sequence (other :: rest)) := ih (List.cons_ne_nil _ _) hrest
      have hafter : (Lexer.scan (start + item.text.length + 1)
          (ascii ' ' :: ((sequence (other :: rest)).text ++ text))).1 = _ :=
        hothers.spaced htext hscan
          (by rw [hnext, List.length_append, List.length_cons, List.length_cons]; omega)
      have hcomma : (Lexer.scan (start + item.text.length)
          ([ascii ','] ++ ascii ' ' :: ((sequence (other :: rest)).text ++ text))).1 = _ :=
        Lexer.scan_of_found_touching (Lexer.found_singleByte (by decide : _ = some .comma) _) hafter rfl
      have hfirst : (Lexer.scan position (gap ++ (item.text ++
          ascii ',' :: ascii ' ' :: ((sequence (other :: rest)).text ++ text)))).1 = _ :=
        hitem gap _ _ spaced position start _ (Lexer.separated_cons (.inr (by decide))) hcomma hgap
          hspaced hstart rfl
      rw [hfirst]
      show _ = Except.ok (tokensOfAll spaced start (item :: other :: rest) ++ tokens)
      rw [tokensOfAll, List.append_assoc]
      rfl

theorem scans_of_wellFormed {e : Expr} (h : e.WellFormed) : Scans e := by
  induction e with
  | constant value => exact scans_constant value
  | dice pool => exact scans_dice h
  | selected selector amount pool => exact scans_selected h.1 h.2.1
  | binary op left right ihleft ihright => exact scans_binary (ihleft h.1) (ihright h.2.1)
  | repeated count body ih => exact scans_repeated h.2.1 (ih h.1)
  | sequence items ih =>
    obtain ⟨hitems, hlength, -⟩ := h
    rw [areItems_iff] at hitems
    have hne : items ≠ [] := List.ne_nil_of_length_pos (by omega)
    exact scans_sequence hne fun item hitem => ih item hitem (hitems item hitem).1

theorem tokensOf_text {e : Expr} (h : e.WellFormed) :
    tokensOf e.text = .ok (e.tokensAt false 0 ++ [.endMark e.text.length]) := by
  have hscan := (scans_of_wellFormed h).touching Lexer.separated_nil
    (Lexer.scan_nil e.text.length) (Nat.zero_add _).symm
  rwa [List.append_nil] at hscan

/-! ## 2. Phrases -/

def isNegative : Expr → Bool
  | constant value => decide (value < 0)
  | _ => false

/-- A phrase of an expression as the whole or the body of a list. -/
def asList (e : Expr) (position : Nat) (phrase : Phrase) : Phrase :=
  if e.yieldsList then phrase else .node .list [] position [phrase]

mutual

/-- The phrase of a canonical text with a given first position. -/
def phraseAt (position : Nat) : Expr → Phrase
  | constant value => .node .integer (Decimal.ofInt value) position []
  | dice pool => .node .roll pool.text position []
  | selected selector amount pool =>
      .node .roll pool.text position
        [.node .directive (selector.letters ++ Decimal.ofInt amount)
          (position + pool.text.length + 1) []]
  | binary op left right =>
      .node .group [] position
        [.node .operation [op.symbol] (position + left.text.length + 2)
          [left.phraseAt (position + 1), right.phraseAt (position + left.text.length + 4)]]
  | repeated count body =>
      let number := .node .integer (Decimal.ofInt count) position []
      let start := position + (Decimal.ofInt count).length + 1
      -- The sign of a negative body becomes an operator, and leaves the digits behind it.
      if body.isNegative then
        .node .list [] position
          [.node .operation [ascii '-'] start [number, .node .integer body.text.tail (start + 1) []]]
      else .node .list (Decimal.ofInt count) position [number, body.asList start (body.phraseAt start)]
  | sequence items => .node .sequence [] position (phrasesOfAll position items)

def phrasesOfAll (position : Nat) : List Expr → List Phrase
  | [] => []
  | item :: rest =>
      item.asList position (item.phraseAt position) ::
        phrasesOfAll (position + item.text.length + 2) rest

end

theorem length_phrasesOfAll (position : Nat) (items : List Expr) :
    (phrasesOfAll position items).length = items.length := by
  induction items generalizing position with
  | nil => rfl
  | cons item items ih => rw [phrasesOfAll, List.length_cons, List.length_cons, ih]

/-- The phrase of a canonical text that is the whole formula. -/
def phrase (e : Expr) : Phrase :=
  if e.isSequence then e.phraseAt 0 else .node .sequence [] 0 [e.asList 0 (e.phraseAt 0)]

open Grammar Reader

theorem isFactor_tokensAt {e : Expr} (h : e.yieldsList = false) (hfit : e.WellFormed) (spaced : Bool)
    (position : Nat) : IsFactor (e.tokensAt spaced position) (e.phraseAt position) := by
  induction e generalizing spaced position with
  | constant value =>
    rw [tokensAt, phraseAt]
    by_cases hvalue : value < 0
    · rw [if_pos hvalue, Decimal.ofInt_of_neg hvalue]
      exact .signed rfl rfl rfl
    · rw [if_neg hvalue, Decimal.ofInt_of_nonneg (by omega)]
      exact .number rfl
  | dice pool => exact .roll rfl (fun _ hd => absurd hd List.not_mem_nil)
  | selected selector amount pool => exact .roll rfl (List.forall_mem_singleton.mpr rfl)
  | binary op left right ihleft ihright =>
    obtain ⟨hleft, hright, hleftNumber, hrightNumber⟩ := hfit
    have hl := ihleft hleftNumber hleft false (position + 1)
    have hr := ihright hrightNumber hright true (position + left.text.length + 4)
    rw [tokensAt, phraseAt]
    refine .group rfl rfl ?_
    -- Sums and products are derived at different levels, but are spelled alike.
    cases op with
    | add => exact .sum (.term (.factor hl)) (.inl rfl) (.factor hr)
    | sub => exact .sum (.term (.factor hl)) (.inr rfl) (.factor hr)
    | mul => exact .term (.product (.factor hl) (.inl rfl) hr)
    | div => exact .term (.product (.factor hl) (.inr rfl) hr)
  | repeated => exact nomatch h
  | sequence => exact nomatch h

-- The first token tells a list where it begins, and a count what it is in front of.
theorem exists_cons_tokensAt {e : Expr} (h : e.isSequence = false) (spaced : Bool) (position : Nat) :
    ∃ first rest, e.tokensAt spaced position = first :: rest ∧ first.position = position ∧
      first.spaced = spaced ∧ (e.isNegative = false →
        first.kind = .number ∨ first.kind = .roll ∨ first.kind = .openParen) := by
  cases e with
  | constant value =>
    rw [tokensAt]
    by_cases hvalue : value < 0
    · rw [if_pos hvalue]
      refine ⟨_, _, rfl, rfl, rfl, fun hnegative => ?_⟩
      exact absurd hvalue (of_decide_eq_false hnegative)
    · rw [if_neg hvalue]
      exact ⟨_, _, rfl, rfl, rfl, fun _ => .inl rfl⟩
  | dice => exact ⟨_, _, rfl, rfl, rfl, fun _ => .inr (.inl rfl)⟩
  | selected => exact ⟨_, _, rfl, rfl, rfl, fun _ => .inr (.inl rfl)⟩
  | binary => exact ⟨_, _, rfl, rfl, rfl, fun _ => .inr (.inr rfl)⟩
  | repeated => exact ⟨_, _, rfl, rfl, rfl, fun _ => .inl rfl⟩
  | sequence => exact nomatch h

/-- A count in front of a negative constant makes a difference. -/
theorem isList_tokensAt_negative {count value : Int} (hcount : 1 ≤ count) (hvalue : value < 0)
    (spaced : Bool) (position : Nat) :
    IsList ((Expr.repeated count (.constant value)).tokensAt spaced position)
      ((Expr.repeated count (.constant value)).phraseAt position) := by
  have hnegative : (Expr.constant value).isNegative = true := decide_eq_true hvalue
  rw [tokensAt, tokensAt, if_pos hvalue, phraseAt, if_pos hnegative, text,
    Decimal.ofInt_of_nonneg (by omega : 0 ≤ count), Decimal.ofInt_of_neg hvalue, List.tail_cons]
  exact .body (.sum (.term (.factor (.number rfl))) (.inr rfl) (.factor (.number rfl)))

theorem isList_tokensAt_scalar {e : Expr} (hnumber : e.yieldsList = false)
    (hsequence : e.isSequence = false) (hfit : e.WellFormed) (spaced : Bool) (position : Nat) :
    IsList (e.tokensAt spaced position) (e.asList position (e.phraseAt position)) := by
  obtain ⟨first, rest, hcons, hposition, -⟩ := exists_cons_tokensAt hsequence spaced position
  have hfactor := isFactor_tokensAt hnumber hfit spaced position
  rw [asList, hnumber, if_neg Bool.false_ne_true]
  rw [hcons] at hfactor ⊢
  rw [← hposition] at hfactor ⊢
  exact .body (.term (.factor hfactor))

theorem isList_tokensAt {e : Expr} (h : e.isSequence = false) (hfit : e.WellFormed) (spaced : Bool)
    (position : Nat) :
    IsList (e.tokensAt spaced position) (e.asList position (e.phraseAt position)) := by
  induction e generalizing spaced position with
  | constant value => exact isList_tokensAt_scalar rfl rfl hfit spaced position
  | dice pool => exact isList_tokensAt_scalar rfl rfl hfit spaced position
  | selected selector amount pool => exact isList_tokensAt_scalar rfl rfl hfit spaced position
  | binary op left right => exact isList_tokensAt_scalar rfl rfl hfit spaced position
  | repeated count body ih =>
    obtain ⟨hbody, hcount, -, hsequence, -⟩ := hfit
    rw [asList, yieldsList, if_pos rfl]
    cases hnegative : body.isNegative with
    | true =>
      cases body with
      | constant value => exact isList_tokensAt_negative hcount (of_decide_eq_true hnegative) _ _
      | _ => exact nomatch hnegative
    | false =>
      -- One blank and the beginning of an operand: the number in front is read as a count.
      obtain ⟨first, rest, hcons, hposition, hspaced, hbegins⟩ :=
        exists_cons_tokensAt hsequence true (position + (Decimal.ofInt count).length + 1)
      have hlist := ih hsequence hbody true (position + (Decimal.ofInt count).length + 1)
      rw [tokensAt, phraseAt, if_neg (by rw [hnegative]; exact Bool.false_ne_true)]
      rw [hcons] at hlist ⊢
      exact .repeated rfl hspaced (hbegins hnegative) hlist
  | sequence => exact nomatch h

theorem areLists_tokensOfAll {items : List Expr} (hne : items ≠ [])
    (h : ∀ item ∈ items, item.WellFormed ∧ item.isSequence = false) (spaced : Bool)
    (position : Nat) :
    AreLists (tokensOfAll spaced position items) (phrasesOfAll position items) := by
  induction items generalizing spaced position with
  | nil => exact absurd rfl hne
  | cons item rest ih =>
    obtain ⟨⟨hitem, hsequence⟩, hrest⟩ := List.forall_mem_cons.mp h
    have hlist := isList_tokensAt hsequence hitem spaced position
    cases rest with
    | nil => exact .single hlist
    | cons other rest => exact .more hlist rfl (ih (List.cons_ne_nil _ _) hrest true _)

theorem exists_cons_tokensOfAll {items : List Expr} (hne : items ≠ [])
    (h : ∀ item ∈ items, item.isSequence = false) (spaced : Bool) (position : Nat) :
    ∃ first rest, tokensOfAll spaced position items = first :: rest ∧ first.position = position := by
  cases items with
  | nil => exact absurd rfl hne
  | cons item others =>
    obtain ⟨first, rest, hcons, hposition, -⟩ :=
      exists_cons_tokensAt (h item List.mem_cons_self) spaced position
    cases others with
    | nil => exact ⟨first, rest, hcons, hposition⟩
    | cons other others =>
      rw [tokensOfAll, hcons]
      exact ⟨first, _, rfl, hposition⟩

theorem isSequence_tokensAt {e : Expr} (h : e.WellFormed) :
    IsSequence (e.tokensAt false 0) e.phrase := by
  unfold phrase
  cases hsequence : e.isSequence with
  | false =>
    obtain ⟨first, rest, hcons, hposition, -⟩ := exists_cons_tokensAt hsequence false 0
    have hlist := isList_tokensAt hsequence h false 0
    rw [if_neg Bool.false_ne_true]
    rw [hcons] at hlist ⊢
    rw [← hposition] at hlist ⊢
    exact .lists (.single hlist)
  | true =>
    cases e with
    | sequence items =>
      obtain ⟨hitems, hlength, -⟩ := h
      rw [areItems_iff] at hitems
      have hne : items ≠ [] := List.ne_nil_of_length_pos (by omega)
      obtain ⟨first, rest, hcons, hposition⟩ := exists_cons_tokensOfAll hne
        (fun item hitem => (hitems item hitem).2) false 0
      have hlists := areLists_tokensOfAll hne hitems false 0
      rw [if_pos rfl, tokensAt, phraseAt]
      rw [hcons] at hlists ⊢
      rw [← hposition] at hlists ⊢
      exact .lists hlists
    | _ => exact nomatch hsequence

/-- A canonical text is read as the phrase of its expression. -/
theorem readPhrase_text {e : Expr} (h : e.WellFormed) : readPhrase e.text = .ok e.phrase := by
  have hparse := parse_of_isSequence (rfl : (Token.endMark e.text.length).kind = .finish)
    (isSequence_tokensAt h)
  unfold readPhrase
  rw [tokensOf_text h]
  exact congrArg Prod.fst hparse

end Expr

end DiceFormula
