import DiceFormula.Proofs.Spelling

/-!
# Canonical texts are unambiguous

Two expressions with one canonical text have one phrase, and the phrase gives the expression away at
every node. This holds for repeated negative constants as well, although their texts are not read
back: no other phrase of a canonical text has an operation right inside a list.
-/

namespace DiceFormula

/-! ## 1. Pools and selections -/

theorem Pool.text_injective {pool pool' : Pool} (h : pool.WellFormed) (h' : pool'.WellFormed)
    (htext : pool.text = pool'.text) : pool = pool' := by
  have hfudge := h.fudge_sides
  have hfudge' := h'.fudge_sides
  have hsides := h.sides_pos
  have hsides' := h'.sides_pos
  obtain ⟨count, sides, kind⟩ := pool
  obtain ⟨count', sides', kind'⟩ := pool'
  -- The letter in the middle ends the digits of both counts.
  unfold Pool.text at htext
  rw [List.append_assoc, List.append_assoc] at htext
  obtain ⟨rfl, htail⟩ := Decimal.ofInt_append_inj rfl rfl htext
  have hletter : ∀ i : Int, 1 ≤ i → Decimal.ofInt i ≠ bytes "F" := by
    intro i hi heq
    rw [Decimal.ofInt_of_nonneg (by omega)] at heq
    have hdigit := @Decimal.isDigit_of_mem_ofNat i.natAbs (ascii 'F')
    rw [heq] at hdigit
    exact absurd (hdigit (by decide)) (by decide)
  have hsidesText := List.append_cancel_left htail
  cases kind <;> cases kind'
  · obtain rfl := Decimal.ofInt_injective hsidesText
    rfl
  · exact absurd hsidesText (hletter sides hsides)
  · exact absurd hsidesText.symm (hletter sides' hsides')
  · obtain rfl : sides = 3 := hfudge rfl
    obtain rfl : sides' = 3 := hfudge' rfl
    rfl

theorem Operator.symbol_injective {op op' : Operator} (h : op.symbol = op'.symbol) : op = op' := by
  revert h
  cases op <;> cases op' <;> decide

theorem directive_injective {selector selector' : Selector} {amount amount' : Int}
    (h : selector.letters ++ Decimal.ofInt amount = selector'.letters ++ Decimal.ofInt amount') :
    selector = selector' ∧ amount = amount' := by
  have hlength : ∀ selector : Selector, selector.letters.length = 2 := by
    intro selector
    cases selector <;> rfl
  have hletters : ∀ {selector selector' : Selector}, selector.letters = selector'.letters →
      selector = selector' := by
    intro selector selector'
    cases selector <;> cases selector' <;> decide
  obtain ⟨hfront, hamount⟩ := List.append_inj h ((hlength selector).trans (hlength selector').symm)
  exact ⟨hletters hfront, Decimal.ofInt_injective hamount⟩

namespace Expr

/-! ## 2. Phrases -/

/-- The rule of the phrase of an expression. -/
def phraseRule : Expr → Rule
  | constant _ => .integer
  | dice _ => .roll
  | selected _ _ _ => .roll
  | binary _ _ _ => .group
  | repeated _ _ => .list
  | sequence _ => .sequence

theorem rule_phraseAt (e : Expr) (position : Nat) : (e.phraseAt position).rule = e.phraseRule := by
  cases e with
  | repeated count body =>
    rw [phraseAt]
    split <;> rfl
  | _ => rfl

theorem phraseRule_eq {e e' : Expr} {position : Nat}
    (h : e.phraseAt position = e'.phraseAt position) : e.phraseRule = e'.phraseRule := by
  rw [← rule_phraseAt e position, h, rule_phraseAt]

-- The brackets that a list puts around a number are not mistaken for a list of its own.
theorem phraseAt_ne_list {e : Expr} (h : e.yieldsList = true) {number : Expr}
    (hnumber : number.yieldsList = false) (position start : Nat) :
    e.phraseAt position ≠ .node .list [] position [number.phraseAt start] := by
  intro heq
  cases e with
  | repeated count body =>
    rw [phraseAt] at heq
    split at heq
    · obtain ⟨-, -, -, hparts⟩ := Phrase.node.inj heq
      have hrule := congrArg Phrase.rule (List.cons.inj hparts).1
      rw [rule_phraseAt] at hrule
      cases number <;> cases hrule
    · cases (List.cons.inj (Phrase.node.inj heq).2.2.2).2
  | sequence => cases heq
  | _ => cases h

theorem phraseAt_eq_of_asList {e e' : Expr} {position : Nat}
    (h : e.asList position (e.phraseAt position) = e'.asList position (e'.phraseAt position)) :
    e.phraseAt position = e'.phraseAt position := by
  unfold asList at h
  cases hlist : e.yieldsList <;> cases hlist' : e'.yieldsList
  · rw [hlist, hlist', if_neg Bool.false_ne_true, if_neg Bool.false_ne_true] at h
    exact (List.cons.inj (Phrase.node.inj h).2.2.2).1
  · rw [hlist, hlist', if_neg Bool.false_ne_true, if_pos rfl] at h
    exact absurd h.symm (phraseAt_ne_list hlist' hlist position position)
  · rw [hlist, hlist', if_neg Bool.false_ne_true, if_pos rfl] at h
    exact absurd h (phraseAt_ne_list hlist hlist' position position)
  · rw [hlist, hlist', if_pos rfl, if_pos rfl] at h
    exact h

-- Item by item: the text of each item fixes the position of the next one.
theorem phrasesOfAll_injective {items items' : List Expr} (hfit : ∀ item ∈ items', item.WellFormed)
    (ih : ∀ item ∈ items, ∀ {e' : Expr}, e'.WellFormed → ∀ {position : Nat},
      item.phraseAt position = e'.phraseAt position → item = e')
    {position : Nat} (h : phrasesOfAll position items = phrasesOfAll position items') :
    items = items' := by
  induction items generalizing items' position with
  | nil =>
    cases items' with
    | nil => rfl
    | cons => exact nomatch h
  | cons item items ih' =>
    cases items' with
    | nil => exact nomatch h
    | cons item' items' =>
      obtain ⟨hitem, hitems⟩ := List.forall_mem_cons.mp hfit
      obtain ⟨hfirst, hrest⟩ := List.forall_mem_cons.mp ih
      rw [phrasesOfAll, phrasesOfAll] at h
      obtain ⟨hpart, hparts⟩ := List.cons.inj h
      obtain rfl := hfirst hitem (phraseAt_eq_of_asList hpart)
      rw [ih' hitems hrest hparts]

-- Both the sign and the digits of a negative body are kept in its phrase.
theorem eq_of_negative_tail {body body' : Expr} (h : body.isNegative = true)
    (h' : body'.isNegative = true) (htail : body.text.tail = body'.text.tail) : body = body' := by
  cases body with
  | constant value =>
    cases body' with
    | constant value' =>
      have hvalue : value < 0 := of_decide_eq_true h
      have hvalue' : value' < 0 := of_decide_eq_true h'
      rw [text, text, Decimal.ofInt_of_neg hvalue, Decimal.ofInt_of_neg hvalue', List.tail_cons,
        List.tail_cons] at htail
      have habs := Decimal.ofNat_injective htail
      obtain rfl : value = value' := by omega
      rfl
    | _ => cases h'
  | _ => cases h

theorem eq_of_phraseAt_repeated {count count' : Int} {body body' : Expr} {position : Nat}
    (ih : ∀ {position}, body.phraseAt position = body'.phraseAt position → body = body')
    (h : (repeated count body).phraseAt position = (repeated count' body').phraseAt position) :
    repeated count body = repeated count' body' := by
  rw [phraseAt, phraseAt] at h
  cases hnegative : body.isNegative <;> cases hnegative' : body'.isNegative
  · rw [hnegative, hnegative', if_neg Bool.false_ne_true, if_neg Bool.false_ne_true] at h
    obtain ⟨-, hcount, -, hparts⟩ := Phrase.node.inj h
    obtain rfl := Decimal.ofInt_injective hcount
    obtain ⟨hbody, -⟩ := List.cons.inj (List.cons.inj hparts).2
    rw [ih (phraseAt_eq_of_asList hbody)]
  · rw [hnegative, hnegative', if_neg Bool.false_ne_true, if_pos rfl] at h
    cases (List.cons.inj (Phrase.node.inj h).2.2.2).2
  · rw [hnegative, hnegative', if_neg Bool.false_ne_true, if_pos rfl] at h
    cases (List.cons.inj (Phrase.node.inj h).2.2.2).2
  · rw [hnegative, hnegative', if_pos rfl, if_pos rfl] at h
    obtain ⟨hdifference, -⟩ := List.cons.inj (Phrase.node.inj h).2.2.2
    obtain ⟨-, -, -, hoperands⟩ := Phrase.node.inj hdifference
    obtain ⟨hnumber, hdigits⟩ := List.cons.inj hoperands
    obtain rfl := Decimal.ofInt_injective (Phrase.node.inj hnumber).2.1
    obtain ⟨-, htail, -⟩ := Phrase.node.inj (List.cons.inj hdigits).1
    rw [eq_of_negative_tail hnegative hnegative' htail]

/-- An expression is given away by its phrase. -/
theorem phraseAt_injective {e e' : Expr} (h : e.WellFormed) (h' : e'.WellFormed) {position : Nat}
    (hphrase : e.phraseAt position = e'.phraseAt position) : e = e' := by
  induction e generalizing e' position with
  | constant value =>
    cases e' with
    | constant value' => rw [Decimal.ofInt_injective (Phrase.node.inj hphrase).2.1]
    | _ => exact nomatch phraseRule_eq hphrase
  | dice pool =>
    cases e' with
    | dice pool' => rw [Pool.text_injective h h' (Phrase.node.inj hphrase).2.1]
    | selected => exact nomatch (Phrase.node.inj hphrase).2.2.2
    | _ => exact nomatch phraseRule_eq hphrase
  | selected selector amount pool =>
    cases e' with
    | dice => exact nomatch (Phrase.node.inj hphrase).2.2.2
    | selected selector' amount' pool' =>
      obtain ⟨-, hpool, -, hparts⟩ := Phrase.node.inj hphrase
      obtain ⟨-, hdirective, -⟩ := Phrase.node.inj (List.cons.inj hparts).1
      obtain ⟨rfl, rfl⟩ := directive_injective hdirective
      rw [Pool.text_injective h.1 h'.1 hpool]
    | _ => exact nomatch phraseRule_eq hphrase
  | binary op left right ihleft ihright =>
    cases e' with
    | binary op' left' right' =>
      obtain ⟨hoperation, -⟩ := List.cons.inj (Phrase.node.inj hphrase).2.2.2
      obtain ⟨-, hsymbol, -, hoperands⟩ := Phrase.node.inj hoperation
      obtain rfl := Operator.symbol_injective (List.cons.inj hsymbol).1
      obtain ⟨hleft, hrest⟩ := List.cons.inj hoperands
      obtain rfl := ihleft h.1 h'.1 hleft
      rw [ihright h.2.1 h'.2.1 (List.cons.inj hrest).1]
    | _ => exact nomatch phraseRule_eq hphrase
  | repeated count body ih =>
    cases e' with
    | repeated count' body' => exact eq_of_phraseAt_repeated (ih h.1 h'.1) hphrase
    | _ => exact nomatch phraseRule_eq hphrase
  | sequence items ih =>
    cases e' with
    | sequence items' =>
      have hitems := areItems_iff.mp h.1
      have hitems' := areItems_iff.mp h'.1
      obtain ⟨-, -, -, hparts⟩ := Phrase.node.inj hphrase
      rw [phrasesOfAll_injective (fun item hitem => (hitems' item hitem).1)
        (fun item hitem => ih item hitem (hitems item hitem).1) hparts]
    | _ => exact nomatch phraseRule_eq hphrase

/-! ## 3. Texts -/

theorem phraseAt_eq_of_phrase {e e' : Expr} (h : e.WellFormed) (h' : e'.WellFormed)
    (hphrase : e.phrase = e'.phrase) : e.phraseAt 0 = e'.phraseAt 0 := by
  -- A sequence has several parts, and the brackets around anything else have one.
  have hbrackets : ∀ {e : Expr} {part : Phrase}, e.WellFormed → e.isSequence = true →
      e.phraseAt 0 ≠ .node .sequence [] 0 [part] := by
    intro e part hfit hsequence heq
    cases e with
    | sequence items =>
      have hlength := length_phrasesOfAll 0 items
      have hmany := hfit.2.1
      rw [phraseAt] at heq
      rw [(Phrase.node.inj heq).2.2.2, List.length_singleton] at hlength
      omega
    | _ => cases hsequence
  unfold phrase at hphrase
  cases hsequence : e.isSequence <;> cases hsequence' : e'.isSequence
  · rw [hsequence, hsequence', if_neg Bool.false_ne_true, if_neg Bool.false_ne_true] at hphrase
    exact phraseAt_eq_of_asList (List.cons.inj (Phrase.node.inj hphrase).2.2.2).1
  · rw [hsequence, hsequence', if_neg Bool.false_ne_true, if_pos rfl] at hphrase
    exact absurd hphrase.symm (hbrackets h' hsequence')
  · rw [hsequence, hsequence', if_neg Bool.false_ne_true, if_pos rfl] at hphrase
    exact absurd hphrase (hbrackets h hsequence)
  · rwa [hsequence, hsequence', if_pos rfl, if_pos rfl] at hphrase

/-- No two expressions have one canonical text. -/
theorem text_injective {e e' : Expr} (h : e.WellFormed) (h' : e'.WellFormed)
    (htext : e.text = e'.text) : e = e' := by
  have hread := readPhrase_text h
  rw [htext, readPhrase_text h'] at hread
  exact phraseAt_injective h h' (phraseAt_eq_of_phrase h h' (Except.ok.inj hread).symm)

end Expr

end DiceFormula
