import DiceFormula.Phrase.Grammar
import DiceFormula.Phrase.Reader

/-!
# Reading a derivation

A derivation of the grammar takes the reader from a state that expects an operand to one that has
the phrase of the derivation as its operand, whatever tokens follow. The phrase of a term or of a
sum may still be in two parts then: the operand, and the chain of operations that wait for it.
-/

namespace DiceFormula.Reader

open Grammar

/-! ## 1. Single steps -/

theorem run_of_step {state next : State} {token : Token} (rest : List Token)
    (hs : step state token = .next next) : run state (token :: rest) = run next rest := by
  rw [run, hs]

/-- Directives behind a roll become its parts one by one. -/
theorem run_directives (context : Context) (text : Bytes) (position : Nat) (parts : List Phrase)
    {directives : List Token} (h : ∀ d ∈ directives, d.kind = .directive) (rest : List Token) :
    run ⟨.operator (.node .roll text position parts), context⟩ (directives ++ rest) =
      run ⟨.operator (.node .roll text position (parts ++ directives.map directive)), context⟩
        rest := by
  induction directives generalizing parts with
  | nil => rw [List.map_nil, List.append_nil, List.nil_append]
  | cons d directives ih =>
    have hd : d.kind = .directive := h d List.mem_cons_self
    have hs : step ⟨.operator (.node .roll text position parts), context⟩ d =
        .next ⟨.operator (.node .roll text position (parts ++ [directive d])), context⟩ := by
      simp only [step, atOperator, hd]
      rfl
    rw [List.cons_append, run_of_step _ hs, ih _ (fun t ht => h t (List.mem_cons_of_mem _ ht)),
      List.map_cons, List.append_assoc, List.singleton_append]

theorem run_operand {context : Context} {token : Token} {next : State} (rest : List Token)
    (hs : atOperand context token = .next next) :
    run ⟨.operand, context⟩ (token :: rest) = run next rest :=
  run_of_step rest hs

/-- An operator of products behind an operand. -/
theorem run_product {context : Context} {operand : Phrase} {operator : Token} (rest : List Token)
    (h : operator.kind = .star ∨ operator.kind = .slash) :
    run ⟨.operator operand, context⟩ (operator :: rest) =
      run ⟨.operand, { context with
        chain := { context.chain with product := some ⟨context.chain.term operand, operator⟩ } }⟩
        rest := by
  apply run_of_step
  rcases h with h | h <;> simp only [step, atOperator, h]

/-- An operator of sums behind an operand. -/
theorem run_sum {context : Context} {operand : Phrase} {operator : Token} (rest : List Token)
    (h : operator.kind = .plus ∨ operator.kind = .minus) :
    run ⟨.operator operand, context⟩ (operator :: rest) =
      run ⟨.operand, { context with
        chain := { sum := some ⟨context.chain.total operand, operator⟩ } }⟩ rest := by
  apply run_of_step
  rcases h with h | h <;> simp only [step, atOperator, h]

/-! ## 2. Factors, terms and sums -/

mutual

theorem run_of_isFactor {tokens : List Token} {factor : Phrase} (h : IsFactor tokens factor)
    (context : Context) (rest : List Token) :
    run ⟨.operand, context⟩ (tokens ++ rest) = run ⟨.operator factor, context⟩ rest :=
  match h with
  | @IsFactor.roll first _ hfirst hdirectives => by
    have hs : atOperand context first = .next ⟨.operator (roll first), context⟩ := by
      simp only [atOperand, hfirst]
    rw [List.cons_append, run_operand _ hs]
    exact run_directives context first.text first.position [] hdirectives rest
  | @IsFactor.number number hnumber => by
    have hs : atOperand context number = .next ⟨.operator (integer number), context⟩ := by
      simp only [atOperand, hnumber]
    exact run_operand rest hs
  | @IsFactor.signed sign number hsign hnumber hspaced => by
    have hs : atOperand context sign = .next ⟨.afterSign sign, context⟩ := by
      simp only [atOperand, hsign]
    have hs' : step ⟨.afterSign sign, context⟩ number =
        .next ⟨.operator (signedInteger sign number), context⟩ := by
      simp only [step, afterSign, hnumber, hspaced]
      rfl
    rw [List.cons_append, run_operand _ hs]
    exact run_of_step rest hs'
  | @IsFactor.group opening closing _ _ hopening hclosing hsum => by
    have hs : atOperand context opening = .next ⟨.operand, { context with
        opened := (context.chain, opening) :: context.opened
        chain := {} }⟩ := by
      simp only [atOperand, hopening]
    rw [List.cons_append, run_operand _ hs, List.append_assoc]
    -- The sum inside leaves its last term open; the closing parenthesis completes it.
    obtain ⟨chain, operand, hinner, hrun⟩ := run_of_isSum hsum
      { context with opened := (context.chain, opening) :: context.opened, chain := {} }
      ([closing] ++ rest) rfl
    rw [hrun]
    apply run_of_step
    simp only [step, atOperator, hclosing, hinner]
    rfl

theorem run_of_isTerm {tokens : List Token} {term : Phrase} (h : IsTerm tokens term)
    (context : Context) (rest : List Token) (hproduct : context.chain.product = none) :
    ∃ product operand, ({ context.chain with product := product } : Chain).term operand = term ∧
      run ⟨.operand, context⟩ (tokens ++ rest) =
        run ⟨.operator operand, { context with
          chain := { context.chain with product := product } }⟩ rest :=
  match h with
  | .factor hf => by
    refine ⟨none, term, rfl, ?_⟩
    rw [run_of_isFactor hf, ← hproduct]
  | @IsTerm.product _ right operator a b hleft hoperator hright => by
    obtain ⟨product, operand, hterm, hrun⟩ :=
      run_of_isTerm hleft context (operator :: right ++ rest) hproduct
    refine ⟨some ⟨a, operator⟩, b, rfl, ?_⟩
    rw [List.append_assoc, hrun, List.cons_append, run_product _ hoperator, run_of_isFactor hright,
      hterm]

theorem run_of_isSum {tokens : List Token} {sum : Phrase} (h : IsSum tokens sum)
    (context : Context) (rest : List Token) (hchain : context.chain = {}) :
    ∃ chain operand, Chain.total chain operand = sum ∧
      run ⟨.operand, context⟩ (tokens ++ rest) =
        run ⟨.operator operand, { context with chain := chain }⟩ rest :=
  match h with
  | .term ht => by
    obtain ⟨product, operand, hterm, hrun⟩ := run_of_isTerm ht context rest (by rw [hchain])
    refine ⟨{ context.chain with product := product }, operand, ?_, hrun⟩
    rw [← hterm, hchain]
    rfl
  | @IsSum.sum _ right operator a _ hleft hoperator hright => by
    obtain ⟨chain, operand, htotal, hrun⟩ :=
      run_of_isSum hleft context (operator :: right ++ rest) hchain
    obtain ⟨product, operand', hterm, hrun'⟩ := run_of_isTerm hright
      { context with chain := { sum := some ⟨a, operator⟩ } } rest rfl
    refine ⟨{ sum := some ⟨a, operator⟩, product := product }, operand', ?_, ?_⟩
    · exact congrArg (operation operator a) hterm
    · rw [List.append_assoc, hrun, List.cons_append, run_sum _ hoperator, htotal, hrun']

end

/-! ## 3. Numbers that are no counts -/

/-- The token behind a number in front is not the beginning of an operand. -/
def NumberIsOperand (tokens : List Token) : Prop :=
  ∀ first next rest, tokens = first :: next :: rest → first.kind = .number →
    beginsOperand next.kind = false

theorem numberIsOperand_append {left right : List Token} {operator : Token}
    (h : NumberIsOperand left) (hoperator : beginsOperand operator.kind = false) :
    NumberIsOperand (left ++ operator :: right) := by
  intro first next rest heq hfirst
  -- The second token is the operator itself, or one in front of it.
  match left, h, heq with
  | [], _, heq =>
    obtain ⟨rfl, -⟩ := List.cons.inj heq
    rw [hfirst] at hoperator
    exact absurd hoperator (by decide)
  | [_], _, heq =>
    obtain ⟨-, htail⟩ := List.cons.inj heq
    obtain ⟨rfl, -⟩ := List.cons.inj htail
    exact hoperator
  | a :: b :: left, h, heq =>
    obtain ⟨ha, htail⟩ := List.cons.inj heq
    obtain ⟨rfl, -⟩ := List.cons.inj htail
    exact h a b left rfl (ha ▸ hfirst)

theorem numberIsOperand_of_isFactor {tokens : List Token} {factor : Phrase}
    (h : IsFactor tokens factor) : NumberIsOperand tokens := by
  intro first next rest heq hfirst
  cases h with
  | roll hroll =>
    obtain ⟨rfl, -⟩ := List.cons.inj heq
    exact absurd (hroll.symm.trans hfirst) (by decide)
  | number => exact nomatch heq
  | signed hsign =>
    obtain ⟨rfl, -⟩ := List.cons.inj heq
    exact absurd (hsign.symm.trans hfirst) (by decide)
  | group hopening =>
    obtain ⟨rfl, -⟩ := List.cons.inj heq
    exact absurd (hopening.symm.trans hfirst) (by decide)

theorem numberIsOperand_of_isTerm {tokens : List Token} {term : Phrase} (h : IsTerm tokens term) :
    NumberIsOperand tokens :=
  match h with
  | .factor hf => numberIsOperand_of_isFactor hf
  | .product hleft hoperator _ =>
    numberIsOperand_append (numberIsOperand_of_isTerm hleft)
      (by rcases hoperator with h | h <;> rw [h] <;> decide)

theorem numberIsOperand_of_isSum {tokens : List Token} {sum : Phrase} (h : IsSum tokens sum) :
    NumberIsOperand tokens :=
  match h with
  | .term ht => numberIsOperand_of_isTerm ht
  | .sum hleft hoperator _ =>
    numberIsOperand_append (numberIsOperand_of_isSum hleft)
      (by rcases hoperator with h | h <;> rw [h] <;> decide)

/-- Unless it is a count, the first token of a list is read like that of any operand. -/
theorem run_list_eq_run_operand {context : Context} {first : Token} {rest : List Token}
    (h : NumberIsOperand (first :: rest)) :
    run ⟨.list, context⟩ (first :: rest) =
      run ⟨.operand, { context with bodyStart := first.position }⟩ (first :: rest) := by
  by_cases hfirst : first.kind = .number
  · have hlist : step ⟨.list, context⟩ first =
        .next ⟨.afterNumber first, { context with bodyStart := first.position }⟩ := by
      simp only [step, atList, hfirst]
    have hoperand : step ⟨.operand, { context with bodyStart := first.position }⟩ first =
        .next ⟨.operator (integer first), { context with bodyStart := first.position }⟩ := by
      simp only [step, atOperand, hfirst]
    rw [run_of_step _ hlist, run_of_step _ hoperand]
    cases rest with
    | nil => rfl
    | cons next rest =>
      -- At the next token the number is known to be no count, and both states agree.
      have hnext := h first next rest rfl hfirst
      have hstep : step ⟨.afterNumber first, { context with bodyStart := first.position }⟩ next =
          step ⟨.operator (integer first), { context with bodyStart := first.position }⟩ next := by
        simp only [step, afterNumber, hnext, Bool.and_false]
        rfl
      rw [run, run, hstep]
  · have hstep : step ⟨.list, context⟩ first =
        step ⟨.operand, { context with bodyStart := first.position }⟩ first := by
      simp only [step, atList]
    rw [run, run, hstep]

/-! ## 4. Lists -/

theorem run_of_isList {tokens : List Token} {list : Phrase} (h : IsList tokens list)
    {context : Context} (follow : Token) (rest : List Token)
    (hfollow : beginsOperand follow.kind = false) (hopened : context.opened = [])
    (hchain : context.chain = {}) :
    ∃ counts bodyStart chain operand,
      ({ context with counts := counts, bodyStart := bodyStart } : Context).list
          (Chain.total chain operand) =
        context.counts.foldl (fun list count => repetition count list) list ∧
      run ⟨.list, context⟩ (tokens ++ follow :: rest) =
        run ⟨.operator operand, { context with
          counts := counts, bodyStart := bodyStart, chain := chain }⟩ (follow :: rest) := by
  -- The counts that have been read are part of the context, so it changes in the induction.
  induction h generalizing context with
  | @body first more expression hsum =>
    obtain ⟨chain, operand, htotal, hrun⟩ :=
      run_of_isSum hsum { context with bodyStart := first.position } (follow :: rest) hchain
    refine ⟨context.counts, first.position, chain, operand, ?_, ?_⟩
    · rw [htotal]
      rfl
    · rw [List.cons_append, run_list_eq_run_operand, ← List.cons_append, hrun]
      exact numberIsOperand_append (numberIsOperand_of_isSum hsum) hfollow
  | @repeated count first more list hcount hspaced hbegins _ ih =>
    obtain ⟨counts, bodyStart, chain, operand, hlist, hrun⟩ :=
      @ih { context with counts := count :: context.counts, bodyStart := count.position } hopened hchain
    refine ⟨counts, bodyStart, chain, operand, hlist, ?_⟩
    have hs : step ⟨.list, context⟩ count =
        .next ⟨.afterNumber count, { context with bodyStart := count.position }⟩ := by
      simp only [step, atList, hcount]
    have hs' : step ⟨.afterNumber count, { context with bodyStart := count.position }⟩ first =
        step ⟨.list, { context with
          counts := count :: context.counts, bodyStart := count.position }⟩ first := by
      simp only [step, afterNumber, hspaced, (beginsOperand_iff _).mpr hbegins, Bool.and_true, if_true]
    rw [List.cons_append, run_of_step _ hs, ← hrun, List.cons_append, run, run, hs']

theorem step_eq_atListEnd {context : Context} {operand : Phrase} {token : Token}
    (hopened : context.opened = []) (hk : token.kind = .comma ∨ token.kind = .finish) :
    step ⟨.operator operand, context⟩ token =
      atListEnd context (context.chain.total operand) token := by
  rcases hk with hk | hk <;> simp [step, atOperator, hk, hopened]

/-- A derivation of lists takes the reader to the end. -/
theorem run_of_areLists {tokens : List Token} {lists : List Phrase} (h : AreLists tokens lists)
    {context : Context} {mark : Token} (hmark : mark.kind = .finish)
    (hcounts : context.counts = []) (hopened : context.opened = []) (hchain : context.chain = {}) :
    run ⟨.list, context⟩ (tokens ++ [mark]) =
      (.ok (.node .sequence [] context.start (context.items.reverse ++ lists)), [mark]) := by
  induction h generalizing context with
  | @single tokens list hlist =>
    obtain ⟨counts, bodyStart, chain, operand, hphrase, hrun⟩ :=
      run_of_isList hlist mark [] (by rw [hmark]; decide) hopened hchain
    rw [hcounts] at hphrase
    have hs : step ⟨.operator operand, { context with
        counts := counts, bodyStart := bodyStart, chain := chain }⟩ mark =
        .complete (.node .sequence [] context.start (context.items.reverse ++ [list])) := by
      refine (step_eq_atListEnd (by exact hopened) (.inr hmark)).trans ?_
      simp only [atListEnd, hmark]
      exact congrArg (fun last => Step.complete (.node .sequence [] context.start
        (context.items.reverse ++ [last]))) hphrase
    rw [hrun, run, hs]
  | @more tokens others comma list lists hlist hcomma _ ih =>
    obtain ⟨counts, bodyStart, chain, operand, hphrase, hrun⟩ :=
      run_of_isList hlist comma (others ++ [mark]) (by rw [hcomma]; decide) hopened hchain
    rw [hcounts] at hphrase
    have hs : step ⟨.operator operand, { context with
        counts := counts, bodyStart := bodyStart, chain := chain }⟩ comma =
        .next ⟨.list, { context with
          items := list :: context.items, counts := [], bodyStart := bodyStart, chain := {} }⟩ := by
      refine (step_eq_atListEnd (by exact hopened) (.inl hcomma)).trans ?_
      simp only [atListEnd, hcomma]
      exact congrArg (fun item => Step.next ⟨.list, { context with
        items := item :: context.items, counts := [], bodyStart := bodyStart, chain := {} }⟩) hphrase
    have hothers := @ih { context with
      items := list :: context.items, counts := [], bodyStart := bodyStart, chain := {} } rfl hopened rfl
    rw [List.append_assoc, List.cons_append, hrun, run_of_step _ hs, hothers,
      List.reverse_cons, List.append_assoc, List.singleton_append]

/-- The reader accepts what the grammar derives. -/
theorem parse_of_isSequence {tokens : List Token} {mark : Token} {phrase : Phrase}
    (hmark : mark.kind = .finish) (h : IsSequence tokens phrase) :
    parse (tokens ++ [mark]) = (.ok phrase, [mark]) := by
  cases h with
  | lists hlists => exact run_of_areLists hlists hmark rfl rfl rfl

end DiceFormula.Reader
