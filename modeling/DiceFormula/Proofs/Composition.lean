import DiceFormula.Proofs.Moved

/-!
# Formulas put together

A formula in parentheses, behind a count or beside a comma means there what it means alone, so the
meaning of a formula that is put together is built from the meanings of its parts.
-/

namespace DiceFormula

open DiceFormula.Expr Grammar Lexer

/-! ## 1. Tokens and lists of a text -/

theorem tokenized_of_tokensOf {text : Bytes} {tokens : List Token} (h : tokensOf text = .ok tokens) :
    Tokenized 0 text tokens := by
  rcases tokenized_or_blocked 0 text with ⟨others, hothers⟩ | ⟨stop, rest, hblocked⟩
  · obtain rfl := Except.ok.inj ((scan_of_tokenized hothers).symm.trans h)
    exact hothers
  · obtain ⟨fault, hfault, -⟩ := scan_of_blocked hblocked
    exact nomatch hfault.symm.trans h

/-- Lists that are written with the tokens of a text are its phrase. -/
theorem compile_of_areLists {text : Bytes} {tokens : List Token} {stop : Nat} {lists : List Phrase}
    (hlists : AreLists tokens lists) (htokens : Tokenized 0 text (tokens ++ [.endMark stop])) :
    ∃ position, compile text =
      (ofPhrase (.node .sequence [] position lists)).mapError .meaning := by
  obtain ⟨first, rest, rfl⟩ := Reader.exists_cons_of_areLists hlists
  have hmark : (Token.endMark stop).kind = .finish := rfl
  have hparse := Reader.parse_of_isSequence hmark (.lists hlists)
  refine ⟨first.position, ?_⟩
  unfold compile readPhrase tokensOf
  rw [scan_of_tokenized htokens]
  simp only [bind, Except.bind, hparse, Except.mapError]

theorem compile_of_isList {text : Bytes} {tokens : List Token} {stop : Nat} {list : Phrase}
    (hlist : IsList tokens list) (htokens : Tokenized 0 text (tokens ++ [.endMark stop])) :
    compile text = (ofPhrase list).mapError .meaning := by
  obtain ⟨position, hcompile⟩ := compile_of_areLists (.single hlist) htokens
  rw [hcompile, ofPhrase_sequence_singleton]

theorem compile_of_several {text : Bytes} {tokens : List Token} {stop : Nat} {lists : List Phrase}
    {items : List Expr} (hlists : AreLists tokens lists) (hlength : 2 ≤ lists.length)
    (hmeaning : ofPhrases lists = .ok items)
    (htokens : Tokenized 0 text (tokens ++ [.endMark stop])) :
    compile text = (Build.sequence (items.map some)).mapError .meaning := by
  obtain ⟨position, hcompile⟩ := compile_of_areLists hlists htokens
  match lists with
  | [] => exact absurd hlength (Nat.not_succ_le_zero 1)
  | [_] => exact absurd hlength (Nat.not_succ_le_self 1)
  | first :: second :: rest =>
    rw [hcompile, ofPhrase_sequence_cons_cons, hmeaning]
    rfl

/-! ## 2. The items of a text -/

theorem Expr.MeansItem.isSequence_eq_false {phrase : Phrase} {e : Expr} (h : MeansItem phrase)
    (hmeaning : ofPhrase phrase = .ok e) : e.isSequence = false := by
  cases h.decides with
  | accepted _ hok =>
    obtain rfl := Except.ok.inj (hok.symm.trans hmeaning)
    exact h.item
  | refused _ herror _ => exact nomatch herror.symm.trans hmeaning

theorem items_of_isSequence_eq_false {e : Expr} (h : e.isSequence = false) : e.items = [e] := by
  cases e with
  | sequence => exact nomatch h
  | _ => rfl

theorem ofPhrases_of_ofPhrase_sequence {lists : List Phrase} {position : Nat} {e : Expr}
    (hitems : ∀ list ∈ lists, MeansItem list)
    (h : ofPhrase (.node .sequence [] position lists) = .ok e) : ofPhrases lists = .ok e.items := by
  match lists with
  | [] => exact nomatch h
  | [list] =>
    rw [ofPhrase_sequence_singleton] at h
    have hlist := (hitems list List.mem_cons_self).isSequence_eq_false h
    rw [items_of_isSequence_eq_false hlist, ofPhrases_cons, h]
    rfl
  | first :: second :: rest =>
    rw [ofPhrase_sequence_cons_cons] at h
    obtain ⟨items, hmeanings, hbuild⟩ := bind_eq_ok_iff.mp h
    obtain ⟨-, -, -, rfl⟩ := sequence_eq_ok_iff.mp hbuild
    exact hmeanings

/-- The lists of a text with a meaning mean the items of this meaning. -/
theorem areLists_of_compile {text : Bytes} {e : Expr} (h : compile text = .ok e) :
    ∃ tokens stop lists, Tokenized 0 text (tokens ++ [.endMark stop]) ∧ AreLists tokens lists ∧
      ofPhrases lists = .ok e.items := by
  obtain ⟨phrase, hread, hmeaning⟩ := bind_eq_ok_iff.mp h
  obtain ⟨tokens, htokens, hparse⟩ := bind_eq_ok_iff.mp (mapError_eq_ok_iff.mp hread)
  obtain ⟨front, stop, rfl, hlexemes⟩ := lexemes_of_scan htokens
  have hfront : ∀ token ∈ front, token.kind ≠ .finish := fun token htoken =>
    kind_ne_finish_of_lexeme (hlexemes token htoken)
  obtain ⟨hlists⟩ := Reader.isSequence_of_parse hfront hparse
  have hitems := meansItem_of_areLists hlists hlexemes
  exact ⟨_, stop, _, tokenized_of_tokensOf htokens, hlists,
    ofPhrases_of_ofPhrase_sequence hitems (mapError_eq_ok_iff.mp hmeaning)⟩

theorem isList_of_areLists {tokens : List Token} {lists : List Phrase} {e : Expr}
    (h : AreLists tokens lists) (hmeaning : ofPhrases lists = .ok [e]) :
    ∃ list, IsList tokens list ∧ ofPhrase list = .ok e := by
  cases h with
  | @single _ list hlist =>
    rw [ofPhrases_cons] at hmeaning
    obtain ⟨item, hitem, hrest⟩ := bind_eq_ok_iff.mp hmeaning
    obtain rfl := (List.cons.inj (Except.ok.inj hrest)).1
    exact ⟨list, hlist, hitem⟩
  | @more _ _ _ list lists _ _ hothers =>
    -- There is another list behind the first one, and no item for it.
    obtain ⟨next, rest, rfl⟩ := List.exists_cons_of_ne_nil (ne_nil_of_areLists hothers)
    rw [ofPhrases_cons, ofPhrases_cons] at hmeaning
    obtain ⟨_, _, hmeaning⟩ := bind_eq_ok_iff.mp hmeaning
    obtain ⟨items, hitems, hmeaning⟩ := bind_eq_ok_iff.mp hmeaning
    obtain ⟨_, _, hitems⟩ := bind_eq_ok_iff.mp hitems
    obtain ⟨_, _, hitems⟩ := bind_eq_ok_iff.mp hitems
    obtain rfl := Except.ok.inj hitems
    exact nomatch Except.ok.inj hmeaning

/-- A repetition means a list, so what means a number is a sum. -/
theorem isSum_of_isList {tokens : List Token} {list : Phrase} {e : Expr} (h : IsList tokens list)
    (hmeaning : ofPhrase list = .ok e) (hnumber : e.yieldsList = false) :
    ∃ sum, IsSum tokens sum ∧ ofPhrase sum = .ok e := by
  cases h with
  | @body first rest sum hsum =>
    rw [ofPhrase_list_singleton] at hmeaning
    exact ⟨sum, hsum, hmeaning⟩
  | @repeated count first rest list hcount _ _ _ =>
    rw [ofPhrase_repetition] at hmeaning
    obtain ⟨n, -, hmeaning⟩ := bind_eq_ok_iff.mp hmeaning
    obtain ⟨inner, -, hbuild⟩ := bind_eq_ok_iff.mp hmeaning
    obtain ⟨-, -, -, rfl⟩ := repeated_eq_ok_iff.mp hbuild
    cases hnumber

theorem isList_of_compile {text : Bytes} {e : Expr} (h : compile text = .ok e)
    (hitem : e.isSequence = false) :
    ∃ tokens stop list, Tokenized 0 text (tokens ++ [.endMark stop]) ∧ IsList tokens list ∧
      ofPhrase list = .ok e := by
  obtain ⟨tokens, stop, lists, htokens, hlists, hitems⟩ := areLists_of_compile h
  rw [items_of_isSequence_eq_false hitem] at hitems
  obtain ⟨list, hlist, hmeaning⟩ := isList_of_areLists hlists hitems
  exact ⟨tokens, stop, list, htokens, hlist, hmeaning⟩

theorem isSum_of_compile {text : Bytes} {e : Expr} (h : compile text = .ok e)
    (hnumber : e.yieldsList = false) :
    ∃ tokens stop sum, Tokenized 0 text (tokens ++ [.endMark stop]) ∧ IsSum tokens sum ∧
      ofPhrase sum = .ok e := by
  obtain ⟨tokens, stop, list, htokens, hlist, hmeaning⟩ :=
    isList_of_compile h (isSequence_eq_false_of_yieldsList hnumber)
  obtain ⟨sum, hsum, hmeaning⟩ := isSum_of_isList hlist hmeaning hnumber
  exact ⟨tokens, stop, sum, htokens, hsum, hmeaning⟩

theorem isList_of_isSum {tokens : List Token} {sum : Phrase} (h : IsSum tokens sum) :
    ∃ list, IsList tokens list ∧ ofPhrase list = ofPhrase sum := by
  obtain ⟨first, rest, rfl, -⟩ := begins_of_isSum h
  exact ⟨_, .body h, ofPhrase_list_singleton _ _ _⟩

/-! ## 3. Two numbers in parentheses -/

/-- A sum in parentheses is an operand with the meaning of the sum. -/
theorem exists_group (position : Nat) {text rest : Bytes} {tokens more : List Token} {sum : Phrase}
    {stop : Nat} (htokenized : Tokenized 0 text (tokens ++ [.endMark stop]))
    (hsum : IsSum tokens sum) (hmore : Tokenized (position + 1 + text.length + 1) rest more) :
    ∃ group others, IsFactor others group ∧ ofPhrase group = ofPhrase sum ∧
      Tokenized position (ascii '(' :: (text ++ ascii ')' :: rest)) (others ++ more) := by
  have hopen : singleByte? (ascii '(') = some .openParen := by decide
  have hclose : singleByte? (ascii ')') = some .closeParen := by decide
  obtain ⟨front, _, inner, closing, heq, halike, hclosing, -, hinner⟩ :=
    tokenized_append htokenized hclose hmore
  obtain rfl := List.append_inj_left' heq rfl
  obtain ⟨sum', hsum', hmeaning⟩ := sum_of_moved hsum (moved_of_alike halike)
  obtain ⟨opening, hopening, -, hgroup⟩ := tokenized_singleByte hopen hinner
  refine ⟨_, _, .group hopening hclosing hsum', ?_, ?_⟩
  · rw [ofPhrase, hmeaning]
  · rw [List.cons_append, List.append_assoc]
    exact hgroup

theorem exists_kind_of_symbol (op : Operator) : ∃ kind, singleByte? op.symbol = some kind ∧
    ((kind = .star ∨ kind = .slash) ∨ kind = .plus ∨ kind = .minus) := by
  cases op <;> exact ⟨_, rfl, by decide⟩

theorem isSum_operation {left right : List Token} {operator : Token} {a b : Phrase}
    (hleft : IsFactor left a) (hright : IsFactor right b)
    (hkind : (operator.kind = .star ∨ operator.kind = .slash) ∨
      operator.kind = .plus ∨ operator.kind = .minus) :
    IsSum (left ++ operator :: right) (operation operator a b) := by
  rcases hkind with hproduct | hsum
  · exact .term (.product (.factor hleft) hproduct hright)
  · exact .sum (.term (.factor hleft)) hsum (.factor hright)

theorem ofPhrase_operation_of_symbol {operator : Token} {op : Operator} {left right : Phrase}
    {a b : Expr} (htext : operator.text = [op.symbol]) (hleft : ofPhrase left = .ok a)
    (hright : ofPhrase right = .ok b) :
    ofPhrase (operation operator left right) = Build.binary op (some a) (some b) := by
  unfold operation
  rw [ofPhrase, hleft, hright, htext]
  show ofOperation [op.symbol] a b = _
  unfold ofOperation
  rw [Operator.ofSymbol?_symbol]

theorem compile_operation {s t : Bytes} {a b : Expr} (ha : compile s = .ok a)
    (hb : compile t = .ok b) (hleft : a.yieldsList = false) (hright : b.yieldsList = false)
    (op : Operator) :
    compile (bytes "(" ++ s ++ bytes ")" ++ [op.symbol] ++ bytes "(" ++ t ++ bytes ")") =
      (Build.binary op (some a) (some b)).mapError .meaning := by
  obtain ⟨tokens, stop, sum, hs, hsum, hmeaning⟩ := isSum_of_compile ha hleft
  obtain ⟨tokens', stop', sum', ht, hsum', hmeaning'⟩ := isSum_of_compile hb hright
  obtain ⟨kind, hsingle, hkind⟩ := exists_kind_of_symbol op
  -- From the last byte to the first one.
  obtain ⟨right, back, hfactor', hright', htokens⟩ :=
    exists_group (0 + 1 + s.length + 1 + 1) ht hsum' (tokenized_nil _)
  obtain ⟨operator, hoperator, htext, htokens⟩ := tokenized_singleByte hsingle htokens
  obtain ⟨left, front, hfactor, hleft', htokens⟩ := exists_group 0 hs hsum htokens
  rw [← hoperator] at hkind
  obtain ⟨list, hlist, hsame⟩ := isList_of_isSum (isSum_operation hfactor hfactor' hkind)
  have hbytes : bytes "(" ++ s ++ bytes ")" ++ [op.symbol] ++ bytes "(" ++ t ++ bytes ")" =
      ascii '(' :: (s ++ ascii ')' :: op.symbol :: ascii '(' :: (t ++ [ascii ')'])) := by
    simp only [List.append_assoc]
    rfl
  rw [hbytes, ← ofPhrase_operation_of_symbol htext (hleft'.trans hmeaning)
    (hright'.trans hmeaning'), ← hsame]
  apply compile_of_isList hlist
  rw [List.append_assoc]
  exact htokens

/-! ## 4. A count in front -/

/-- A list behind a blank begins with a gap and has the meaning that it has alone. What it begins
with may stand behind a count, unless it is a sign. -/
theorem exists_spaced (position : Nat) {text : Bytes} {tokens : List Token} {list : Phrase} {stop : Nat}
    (htokenized : Tokenized 0 text (tokens ++ [.endMark stop])) (hlist : IsList tokens list)
    (hminus : (text.dropWhile isBlank).head? ≠ some (ascii '-')) :
    ∃ first rest last spaced, first.spaced = true ∧
      (first.kind = .number ∨ first.kind = .roll ∨ first.kind = .openParen) ∧
      IsList (first :: rest) spaced ∧ ofPhrase spaced = ofPhrase list ∧
      Tokenized position (ascii ' ' :: text) (first :: (rest ++ [.endMark last])) := by
  obtain ⟨_, _, others, last, heq, halike, hothers⟩ := tokenized_at htokenized (position + 1)
  obtain rfl := List.append_inj_left' heq rfl
  obtain ⟨first, rest, rfl, hfirst⟩ := begins_of_isList hlist
  obtain ⟨other, others, rfl, hother, hrest⟩ := alike_cons halike
  obtain ⟨hkind, htext, -⟩ := fields_of_unplaced hother
  have hbegins : other.kind = .number ∨ other.kind = .roll ∨ other.kind = .openParen := by
    rcases hfirst with hoperand | hsign
    · rwa [hkind]
    · exact absurd (head?_of_minus htokenized hsign) hminus
  have hfinish : other.kind ≠ .finish := by
    intro hfinish
    rw [hfinish] at hbegins
    exact absurd hbegins (by decide)
  obtain ⟨marked, hmarked, hsame, hspaced, htokens⟩ := tokenized_blank hothers hfinish
  obtain ⟨spaced, hlist', hmeaning⟩ :=
    list_of_moved hlist (.cons (hmarked.trans hkind) (hsame.trans htext) hrest)
  rw [← hmarked] at hbegins
  exact ⟨marked, others, last, spaced, hspaced, hbegins, hlist', hmeaning, htokens⟩

theorem compile_repeated {s : Bytes} {a : Expr} (ha : compile s = .ok a)
    (hitem : a.isSequence = false) (hminus : (s.dropWhile isBlank).head? ≠ some (ascii '-'))
    {numeral : Bytes} (hne : numeral ≠ []) (hdigits : ∀ d ∈ numeral, isDigit d = true)
    (hfits : Word.Fits (Decimal.valueOf numeral)) :
    compile (numeral ++ bytes " " ++ s) =
      (Build.repeated (Decimal.valueOf numeral) (some a)).mapError .meaning := by
  obtain ⟨tokens, stop, list, hs, hlist, hmeaning⟩ := isList_of_compile ha hitem
  obtain ⟨first, rest, last, list', hspaced, hbegins, hlist', hmeaning', htokens⟩ :=
    exists_spaced (0 + numeral.length) hs hlist hminus
  obtain ⟨count, hcount, hnumeral, htokens⟩ :=
    tokenized_touching (longest_numeral hne hdigits s) htokens
  have hread := (decides_digits hne hdigits).ok hfits
  have hbytes : numeral ++ bytes " " ++ s = numeral ++ ascii ' ' :: s := by
    rw [List.append_assoc]
    rfl
  rw [hbytes, compile_of_isList (.repeated hcount hspaced hbegins hlist') htokens,
    ofPhrase_repetition, hnumeral, hread, hmeaning', hmeaning]
  rfl

/-! ## 5. Items one behind the other -/

theorem areLists_append {tokens others : List Token} {lists more : List Phrase} {comma : Token}
    (h : AreLists tokens lists) (hcomma : comma.kind = .comma) (hothers : AreLists others more) :
    AreLists (tokens ++ comma :: others) (lists ++ more) := by
  induction h with
  | single hlist => exact .more hlist hcomma hothers
  | more hlist hfirst _ ih =>
    rw [List.append_assoc, List.cons_append]
    exact .more hlist hfirst ih

theorem ofPhrases_append {parts others : List Phrase} {items more : List Expr}
    (h : ofPhrases parts = .ok items) (hothers : ofPhrases others = .ok more) :
    ofPhrases (parts ++ others) = .ok (items ++ more) := by
  induction parts generalizing items with
  | nil =>
    obtain rfl := Except.ok.inj h
    exact hothers
  | cons part parts ih =>
    rw [ofPhrases_cons] at h
    obtain ⟨item, hitem, h⟩ := bind_eq_ok_iff.mp h
    obtain ⟨rest, hrest, h⟩ := bind_eq_ok_iff.mp h
    obtain rfl := Except.ok.inj h
    rw [List.cons_append, ofPhrases_cons, hitem, ih hrest]
    rfl

theorem compile_sequence {s t : Bytes} {a b : Expr} (ha : compile s = .ok a)
    (hb : compile t = .ok b) :
    compile (s ++ bytes "," ++ t) =
      (Build.sequence ((a.items ++ b.items).map some)).mapError .meaning := by
  obtain ⟨tokens, stop, lists, hs, hlists, hitems⟩ := areLists_of_compile ha
  obtain ⟨tokens', stop', lists', ht, hlists', hitems'⟩ := areLists_of_compile hb
  have hcomma : singleByte? (ascii ',') = some .comma := by decide
  obtain ⟨back, _, others, last, heq, halike, ht⟩ := tokenized_at ht (0 + s.length + 1)
  obtain rfl := List.append_inj_left' heq rfl
  obtain ⟨front, _, tokens, comma, heq, halike', hkind, -, htokens⟩ := tokenized_append hs hcomma ht
  obtain rfl := List.append_inj_left' heq rfl
  obtain ⟨lists, hlists, hmeanings⟩ := lists_of_alike hlists halike'
  obtain ⟨lists', hlists', hmeanings'⟩ := lists_of_alike hlists' halike
  have hlength : 2 ≤ (lists ++ lists').length := by
    have hfront := List.length_pos_of_ne_nil (ne_nil_of_areLists hlists)
    have hback := List.length_pos_of_ne_nil (ne_nil_of_areLists hlists')
    rw [List.length_append]
    omega
  have hbytes : s ++ bytes "," ++ t = s ++ ascii ',' :: t := by
    rw [List.append_assoc]
    rfl
  rw [hbytes]
  apply compile_of_several (areLists_append hlists hkind hlists') hlength
    (ofPhrases_append (hmeanings.trans hitems) (hmeanings'.trans hitems'))
  rw [List.append_assoc]
  exact htokens

/-! ## 6. All three -/

/-- Two formulas in parentheses with an operator between them, a formula behind a count and two
formulas with a comma between them mean what is built from the meanings of the formulas, or are
refused as the builder refuses it. -/
theorem compile_composes {s t : Bytes} {a b : Expr} (ha : compile s = .ok a)
    (hb : compile t = .ok b) :
    (a.yieldsList = false → b.yieldsList = false → ∀ op : Operator,
      compile (bytes "(" ++ s ++ bytes ")" ++ [op.symbol] ++ bytes "(" ++ t ++ bytes ")") =
        (Build.binary op (some a) (some b)).mapError .meaning) ∧
      (a.isSequence = false → (s.dropWhile isBlank).head? ≠ some (ascii '-') →
        ∀ numeral, numeral ≠ [] → (∀ d ∈ numeral, isDigit d = true) →
          Word.Fits (Decimal.valueOf numeral) →
          compile (numeral ++ bytes " " ++ s) =
            (Build.repeated (Decimal.valueOf numeral) (some a)).mapError .meaning) ∧
      compile (s ++ bytes "," ++ t) =
        (Build.sequence ((a.items ++ b.items).map some)).mapError .meaning :=
  ⟨compile_operation ha hb,
    fun hitem hminus _ hne hdigits hfits => compile_repeated ha hitem hminus hne hdigits hfits,
    compile_sequence ha hb⟩

def signedDifference : Expr :=
  .binary .sub (.constant 3) (.constant (-2))

def betterOfTwo : Expr :=
  .selected .keepHighest 1 { count := 2, sides := 6 }

/-- Blanks at both ends of the parts, a sign within the first one and zeros in front of the
count. -/
theorem compile_composes_difference :
    compile (bytes "3 - -2 ") = .ok signedDifference ∧
      compile (bytes " 2D6kh1") = .ok betterOfTwo ∧
      compile (bytes "(3 - -2 )*( 2D6kh1)") = .ok (.binary .mul signedDifference betterOfTwo) ∧
      compile (bytes "002 3 - -2 ") = .ok (.repeated 2 signedDifference) ∧
      compile (bytes "3 - -2 , 2D6kh1") = .ok (.sequence [signedDifference, betterOfTwo]) := by
  have hs : compile (bytes "3 - -2 ") = .ok signedDifference := by
    cbv
  have ht : compile (bytes " 2D6kh1") = .ok betterOfTwo := by
    cbv
  obtain ⟨hoperation, hrepeated, hsequence⟩ := compile_composes hs ht
  have hdigits : ∀ d ∈ bytes "002", isDigit d = true := by
    decide +kernel
  have hcount := hrepeated rfl (by decide) (bytes "002") (by decide) hdigits (by decide)
  have hproduct : Build.binary .mul (some signedDifference) (some betterOfTwo) =
      .ok (.binary .mul signedDifference betterOfTwo) := rfl
  have htwice : Build.repeated 2 (some signedDifference) = .ok (.repeated 2 signedDifference) := by
    cbv
  have hboth : Build.sequence ((signedDifference.items ++ betterOfTwo.items).map some) =
      .ok (.sequence [signedDifference, betterOfTwo]) := by
    cbv
  refine ⟨hs, ht, ?_, ?_, ?_⟩
  · exact (hoperation rfl rfl .mul).trans (congrArg (Except.mapError Fault.meaning) hproduct)
  · exact hcount.trans (congrArg (Except.mapError Fault.meaning) htwice)
  · exact hsequence.trans (congrArg (Except.mapError Fault.meaning) hboth)

end DiceFormula
