import DiceFormula.Phrase.Grammar
import DiceFormula.Phrase.Reader

/-!
# What has been read

Each state of the reader stands for the tokens that led to it. `State.Reads` says which ones: the
finished lists with their commas, the repetition counts, the open parentheses, the pending operands
with their operators, and the tokens of the operand that is being read. Every step adds its token to
them, so a phrase that is complete is a derivation of all tokens before the end mark.
-/

namespace DiceFormula.Reader

open Grammar

/-! ## 1. Pending operations -/

/-- The tokens in front of a term that completes a sum. -/
def SumReads : Option Pending → List Token → Prop
  | none, tokens => tokens = []
  | some pending, tokens => ∃ left, tokens = left ++ [pending.operator] ∧
      IsSum left pending.left ∧ (pending.operator.kind = .plus ∨ pending.operator.kind = .minus)

/-- The tokens in front of a factor that completes a product. -/
def ProductReads : Option Pending → List Token → Prop
  | none, tokens => tokens = []
  | some pending, tokens => ∃ left, tokens = left ++ [pending.operator] ∧
      IsTerm left pending.left ∧ (pending.operator.kind = .star ∨ pending.operator.kind = .slash)

/-- The tokens that a chain of pending operations has been read from. -/
def Chain.Reads (chain : Chain) (tokens : List Token) : Prop :=
  ∃ sum product, tokens = sum ++ product ∧ SumReads chain.sum sum ∧
    ProductReads chain.product product

theorem Chain.reads_empty : Chain.Reads {} [] :=
  ⟨[], [], rfl, rfl, rfl⟩

theorem Chain.Reads.eq_nil {tokens : List Token} (h : Chain.Reads {} tokens) : tokens = [] := by
  obtain ⟨sum, product, rfl, rfl, rfl⟩ := h
  rfl

theorem ProductReads.isTerm {chain : Chain} {before tokens : List Token} {factor : Phrase}
    (h : ProductReads chain.product before) (hf : IsFactor tokens factor) :
    IsTerm (before ++ tokens) (chain.term factor) := by
  unfold Chain.term
  cases hp : chain.product with
  | none =>
    rw [hp] at h
    rw [show before = [] from h, List.nil_append]
    exact .factor hf
  | some pending =>
    rw [hp] at h
    obtain ⟨left, rfl, hleft, hop⟩ := h
    rw [List.append_assoc]
    exact .product hleft hop hf

theorem Chain.Reads.isSum {chain : Chain} {before tokens : List Token} {factor : Phrase}
    (h : chain.Reads before) (hf : IsFactor tokens factor) :
    IsSum (before ++ tokens) (chain.total factor) := by
  obtain ⟨sum, product, rfl, hsum, hproduct⟩ := h
  have hterm := hproduct.isTerm hf
  unfold Chain.total
  cases hs : chain.sum with
  | none =>
    rw [hs] at hsum
    rw [show sum = [] from hsum, List.nil_append]
    exact .term hterm
  | some pending =>
    rw [hs] at hsum
    obtain ⟨left, rfl, hleft, hop⟩ := hsum
    rw [List.append_assoc, List.append_assoc]
    exact .sum hleft hop hterm

/-- A product sign behind a factor makes the term so far wait for its next factor. -/
theorem Chain.Reads.product {chain : Chain} {before tokens : List Token} {factor : Phrase}
    {operator : Token} (h : chain.Reads before) (hf : IsFactor tokens factor)
    (hop : operator.kind = .star ∨ operator.kind = .slash) :
    Chain.Reads { chain with product := some ⟨chain.term factor, operator⟩ }
      (before ++ (tokens ++ [operator])) := by
  obtain ⟨sum, product, rfl, hsum, hproduct⟩ := h
  refine ⟨sum, product ++ tokens ++ [operator], ?_, hsum, product ++ tokens, rfl,
    hproduct.isTerm hf, hop⟩
  simp only [List.append_assoc]

/-- A sign of addition or subtraction behind a factor makes the whole sum so far wait. -/
theorem Chain.Reads.sum {chain : Chain} {before tokens : List Token} {factor : Phrase}
    {operator : Token} (h : chain.Reads before) (hf : IsFactor tokens factor)
    (hop : operator.kind = .plus ∨ operator.kind = .minus) :
    Chain.Reads { sum := some ⟨chain.total factor, operator⟩ }
      (before ++ (tokens ++ [operator])) := by
  refine ⟨before ++ tokens ++ [operator], [], ?_, ⟨before ++ tokens, rfl, h.isSum hf, hop⟩, rfl⟩
  simp only [List.append_assoc, List.append_nil]

/-! ## 2. Parentheses, counts and lists -/

/-- The tokens up to the latest open parenthesis, each with the chain that it interrupts. -/
inductive OpenedReads : List (Chain × Token) → List Token → Prop where
  | nil : OpenedReads [] []
  | cons {outer : Chain} {opening : Token} {opened : List (Chain × Token)}
      {before between : List Token} : OpenedReads opened before → outer.Reads between →
      opening.kind = .openParen →
      OpenedReads ((outer, opening) :: opened) (before ++ (between ++ [opening]))

/-- Repetition counts, the latest first, may stand in front of a token. -/
def CountsBefore : List Token → Token → Prop
  | [], _ => True
  | count :: counts, next => count.kind = .number ∧ next.spaced = true ∧
      beginsOperand next.kind = true ∧ CountsBefore counts count

theorem CountsBefore.isList {counts rest : List Token} {first : Token} {list : Phrase}
    (h : CountsBefore counts first) (hlist : IsList (first :: rest) list) :
    IsList (counts.reverse ++ first :: rest)
      (counts.foldl (fun list count => repetition count list) list) := by
  -- The latest count stands next to the list, so the lists grow from the inside.
  induction counts generalizing first rest list with
  | nil => exact hlist
  | cons count counts ih =>
    obtain ⟨hnumber, hspaced, hbegins, hcounts⟩ := h
    rw [List.reverse_cons, List.append_assoc]
    exact ih hcounts (.repeated hnumber hspaced ((beginsOperand_iff _).mp hbegins) hlist)

/-- The tokens of the finished lists, the latest first, with a comma behind each of them. -/
inductive ItemsRead : List Phrase → List Token → Prop where
  | nil : ItemsRead [] []
  | cons {item : Phrase} {items : List Phrase} {before tokens : List Token} {comma : Token} :
      ItemsRead items before → IsList tokens item → comma.kind = .comma →
      ItemsRead (item :: items) (before ++ (tokens ++ [comma]))

theorem ItemsRead.areLists {items lists : List Phrase} {before tokens : List Token}
    (h : ItemsRead items before) (hlists : AreLists tokens lists) :
    AreLists (before ++ tokens) (items.reverse ++ lists) := by
  induction h generalizing tokens lists with
  | nil => exact hlists
  | cons _ hitem hcomma ih =>
    rw [List.reverse_cons, List.append_assoc, List.append_assoc, List.append_assoc]
    exact ih (.more hitem hcomma hlists)

/-! ## 3. States -/

/-- The tokens that a context has been read from, with those of the current operand behind them. The
current expression is not empty, and begins where the context says. -/
def Context.Reads (context : Context) (operand tokens : List Token) : Prop :=
  ∃ before opened chain, tokens = before ++ (context.counts.reverse ++ (opened ++ (chain ++ operand))) ∧
    ItemsRead context.items before ∧ OpenedReads context.opened opened ∧
    context.chain.Reads chain ∧
    ∃ first, (opened ++ (chain ++ operand)).head? = some first ∧
      first.position = context.bodyStart ∧ CountsBefore context.counts first

/-- The tokens that a state has been read from. -/
def State.Reads (state : State) (tokens : List Token) : Prop :=
  match state.expecting with
  | .list => state.context.counts = [] ∧ state.context.opened = [] ∧ state.context.chain = {} ∧
      ItemsRead state.context.items tokens
  | .afterNumber number => state.context.opened = [] ∧ state.context.chain = {} ∧
      number.kind = .number ∧ state.context.Reads [number] tokens
  | .operand => state.context.Reads [] tokens
  | .afterSign sign => sign.kind = .minus ∧ state.context.Reads [sign] tokens
  | .operator operand => ∃ own, IsFactor own operand ∧ state.context.Reads own tokens

/-- More tokens of the current operand. -/
theorem Context.Reads.extend {context : Context} {operand tokens : List Token}
    (h : context.Reads operand tokens) (more : List Token) :
    context.Reads (operand ++ more) (tokens ++ more) := by
  obtain ⟨before, opened, chain, rfl, hitems, hopened, hchain, first, hfirst, hrest⟩ := h
  refine ⟨before, opened, chain, ?_, hitems, hopened, hchain, first, ?_, hrest⟩
  · simp only [List.append_assoc]
  · rw [← List.append_assoc chain, ← List.append_assoc opened, List.head?_append, hfirst,
      Option.some_or]

theorem Context.Reads.isList {context : Context} {own tokens : List Token} {operand : Phrase}
    (h : context.Reads own tokens) (hf : IsFactor own operand) (hopened : context.opened = []) :
    ∃ before current, tokens = before ++ current ∧ ItemsRead context.items before ∧
      IsList current (context.list (context.chain.total operand)) := by
  obtain ⟨before, opened, chain, rfl, hitems, hno, hchain, first, hfirst, hstart, hcounts⟩ := h
  rw [hopened] at hno
  cases hno
  obtain ⟨rest, hbody⟩ : ∃ rest, chain ++ own = first :: rest := List.head?_eq_some_iff.mp hfirst
  have hsum : IsSum (first :: rest) (context.chain.total operand) := hbody ▸ hchain.isSum hf
  refine ⟨before, _, rfl, hitems, ?_⟩
  rw [List.nil_append, hbody]
  unfold Context.list
  rw [← hstart]
  exact hcounts.isList (.body hsum)

/-! ## 4. Steps -/

theorem unexpected_ne_next {token : Token} {more : List Token} {state : State} :
    unexpected token more ≠ .next state := by
  unfold unexpected
  split <;> exact Step.noConfusion

theorem unexpected_ne_complete {token : Token} {more : List Token} {phrase : Phrase} :
    unexpected token more ≠ .complete phrase := by
  unfold unexpected
  split <;> exact Step.noConfusion

theorem reads_of_atOperand {context : Context} {token : Token} {tokens : List Token} {state : State}
    (h : context.Reads [token] tokens) (hs : atOperand context token = .next state) :
    state.Reads tokens := by
  unfold atOperand at hs
  split at hs
  next hk =>
    obtain rfl := Step.next.inj hs
    exact ⟨[token], .roll hk (by simp), h⟩
  next hk =>
    obtain rfl := Step.next.inj hs
    exact ⟨[token], .number hk, h⟩
  next hk =>
    obtain rfl := Step.next.inj hs
    exact ⟨hk, h⟩
  next hk =>
    obtain rfl := Step.next.inj hs
    -- The chain so far is put aside, and the group begins with an empty one.
    obtain ⟨before, opened, chain, rfl, hitems, hopened, hchain, hfirst⟩ := h
    refine ⟨before, opened ++ (chain ++ [token]), [], ?_, hitems, .cons hopened hchain hk,
      Chain.reads_empty, ?_⟩
    · simp only [List.append_nil]
    · simpa only [List.append_nil] using hfirst
  next => exact absurd hs unexpected_ne_next

/-- At the beginning of a list nothing but finished lists and counts has been read. -/
theorem reads_of_atList {context : Context} {token : Token} {before : List Token} {state : State}
    (hitems : ItemsRead context.items before) (hcounts : CountsBefore context.counts token)
    (hopened : context.opened = []) (hchain : context.chain = {})
    (hs : atList context token = .next state) :
    state.Reads (before ++ (context.counts.reverse ++ [token])) := by
  have hreads : Context.Reads { context with bodyStart := token.position } [token]
      (before ++ (context.counts.reverse ++ [token])) := by
    refine ⟨before, [], [], rfl, hitems, hopened ▸ .nil, ?_, token, rfl, rfl, hcounts⟩
    show context.chain.Reads []
    exact hchain ▸ Chain.reads_empty
  unfold atList at hs
  dsimp only at hs
  split at hs
  next hk =>
    obtain rfl := Step.next.inj hs
    exact ⟨hopened, hchain, hk, hreads⟩
  next => exact reads_of_atOperand hreads hs

/-- A directive behind a roll becomes one more part of it. -/
theorem isFactor_addPart {tokens : List Token} {operand : Phrase} {token : Token}
    (h : IsFactor tokens operand) (hroll : operand.rule = .roll) (hk : token.kind = .directive) :
    IsFactor (tokens ++ [token]) (addPart (directive token) operand) := by
  cases h with
  | @roll first directives hfirst hdirectives =>
    have hall : ∀ d ∈ directives ++ [token], d.kind = .directive := by
      intro d hd
      rcases List.mem_append.mp hd with hd | hd
      · exact hdirectives d hd
      · rw [List.mem_singleton.mp hd]
        exact hk
    have hf := IsFactor.roll hfirst hall
    rw [List.map_append] at hf
    exact hf
  | number | signed | group => exact nomatch hroll

/-- A closing parenthesis makes a group of everything since the latest open one. -/
theorem reads_of_closing {context : Context} {outer : Chain} {opening closing : Token}
    {opened : List (Chain × Token)} {own tokens : List Token} {operand : Phrase}
    (h : context.Reads own tokens) (hf : IsFactor own operand)
    (hopened : context.opened = (outer, opening) :: opened) (hk : closing.kind = .closeParen) :
    State.Reads
      ⟨.operator (.node .group [] opening.position [context.chain.total operand]),
        { context with opened := opened, chain := outer }⟩
      (tokens ++ [closing]) := by
  obtain ⟨before, openedTokens, chain, rfl, hitems, hreads, hchain, first, hfirst, hstart⟩ := h
  rw [hopened] at hreads
  cases hreads with
  | @cons _ _ _ before' between hbefore hbetween hopening =>
    -- The group lies behind the first token of the expression, or begins with it.
    have hgroup := IsFactor.group hopening hk (hchain.isSum hf)
    refine ⟨_, hgroup, before, before', between, ?_, hitems, hbefore, hbetween, first, ?_, hstart⟩
    · simp only [List.append_assoc, List.cons_append, List.nil_append]
    · rw [List.append_assoc, List.append_assoc] at hfirst
      rw [show opening :: (chain ++ own ++ [closing]) = [opening] ++ (chain ++ own) ++ [closing] by
        simp only [List.cons_append, List.nil_append], ← List.append_assoc between,
        ← List.append_assoc before', List.head?_append]
      rw [hfirst, Option.some_or]

theorem reads_of_atListEnd {context : Context} {own tokens : List Token} {operand : Phrase}
    {token : Token} {state : State} (h : context.Reads own tokens) (hf : IsFactor own operand)
    (hopened : context.opened = [])
    (hs : atListEnd context (context.chain.total operand) token = .next state) :
    state.Reads (tokens ++ [token]) := by
  obtain ⟨before, current, rfl, hitems, hlist⟩ := h.isList hf hopened
  unfold atListEnd at hs
  split at hs
  next hk =>
    obtain rfl := Step.next.inj hs
    refine ⟨rfl, hopened, rfl, ?_⟩
    rw [List.append_assoc]
    exact .cons hitems hlist hk
  next => exact Step.noConfusion hs
  next => exact Step.noConfusion hs

theorem reads_of_atOperator {context : Context} {own tokens : List Token} {operand : Phrase}
    {token : Token} {state : State} (h : context.Reads own tokens) (hf : IsFactor own operand)
    (hs : atOperator context operand token = .next state) : state.Reads (tokens ++ [token]) := by
  obtain ⟨before, opened, chain, htokens, hitems, hopened, hchain, hfirst⟩ := h.extend [token]
  -- An operator of either level only makes the chain longer.
  have hnext {next : Chain} (hn : next.Reads (chain ++ (own ++ [token]))) :
      Context.Reads { context with chain := next } [] (tokens ++ [token]) := by
    refine ⟨before, opened, chain ++ (own ++ [token]), ?_, hitems, hopened, hn, ?_⟩
    · rw [htokens, List.append_nil]
    · simpa only [List.append_nil] using hfirst
  unfold atOperator at hs
  split at hs
  next hk =>
    obtain rfl := Step.next.inj hs
    exact hnext (hchain.product hf (.inl hk))
  next hk =>
    obtain rfl := Step.next.inj hs
    exact hnext (hchain.product hf (.inr hk))
  next hk =>
    obtain rfl := Step.next.inj hs
    exact hnext (hchain.sum hf (.inl hk))
  next hk =>
    obtain rfl := Step.next.inj hs
    exact hnext (hchain.sum hf (.inr hk))
  next =>
    split at hs
    next hdirective =>
      obtain rfl := Step.next.inj hs
      exact ⟨own ++ [token], isFactor_addPart hf hdirective.2 hdirective.1, h.extend [token]⟩
    next =>
      dsimp only at hs
      split at hs
      next hno => exact reads_of_atListEnd h hf hno hs
      next hsome =>
        split at hs
        next hk =>
          obtain rfl := Step.next.inj hs
          exact reads_of_closing h hf hsome hk
        next => exact Step.noConfusion hs

/-- Every step adds its token to the tokens that have been read. -/
theorem reads_of_step {state next : State} {tokens : List Token} {token : Token}
    (h : state.Reads tokens) (hs : step state token = .next next) : next.Reads (tokens ++ [token]) := by
  obtain ⟨expecting, context⟩ := state
  cases expecting with
  | list =>
    obtain ⟨hcounts, hopened, hchain, hitems⟩ := h
    dsimp only at hcounts
    have := reads_of_atList hitems (hcounts ▸ trivial) hopened hchain hs
    rwa [hcounts] at this
  | afterNumber number =>
    obtain ⟨hopened, hchain, hnumber, hreads⟩ := h
    unfold step afterNumber at hs
    dsimp only at hs
    split at hs
    next hcount =>
      -- The number was a count: behind it a list begins, with one count more in front.
      obtain ⟨hspaced, hbegins⟩ := Bool.and_eq_true_iff.mp hcount
      obtain ⟨before, opened, chain, rfl, hitems, hno, hempty, first, hfirst, -, hcounts⟩ := hreads
      rw [hopened] at hno
      cases hno
      rw [hchain] at hempty
      rw [hempty.eq_nil] at hfirst ⊢
      obtain rfl := Option.some.inj hfirst
      let counted : Context := { context with counts := number :: context.counts }
      have hlist : next.Reads (before ++ (counted.counts.reverse ++ [token])) :=
        reads_of_atList hitems ⟨hnumber, hspaced, hbegins, hcounts⟩ hopened hchain hs
      simpa only [counted, List.reverse_cons, List.append_assoc, List.nil_append] using hlist
    next => exact reads_of_atOperator hreads (.number hnumber) hs
  | operand => exact reads_of_atOperand (h.extend [token]) hs
  | afterSign sign =>
    obtain ⟨hsign, hreads⟩ := h
    unfold step afterSign at hs
    dsimp only at hs
    split at hs
    next hnumber =>
      obtain rfl := Step.next.inj hs
      simp only [Bool.and_eq_true, decide_eq_true_eq, Bool.not_eq_true'] at hnumber
      exact ⟨[sign, token], .signed hsign hnumber.1 hnumber.2, hreads.extend [token]⟩
    next => exact absurd hs unexpected_ne_next
  | operator operand =>
    obtain ⟨own, hf, hreads⟩ := h
    exact reads_of_atOperator hreads hf hs

/-! ## 5. Complete phrases -/

theorem atOperand_ne_complete {context : Context} {token : Token} {phrase : Phrase} :
    atOperand context token ≠ .complete phrase := by
  unfold atOperand
  split
  next => exact Step.noConfusion
  next => exact Step.noConfusion
  next => exact Step.noConfusion
  next => exact Step.noConfusion
  next => exact unexpected_ne_complete

theorem atList_ne_complete {context : Context} {token : Token} {phrase : Phrase} :
    atList context token ≠ .complete phrase := by
  unfold atList
  dsimp only
  split
  next => exact Step.noConfusion
  next => exact atOperand_ne_complete

theorem areLists_of_atOperator {context : Context} {own tokens : List Token} {operand : Phrase}
    {token : Token} {phrase : Phrase} (h : context.Reads own tokens) (hf : IsFactor own operand)
    (hs : atOperator context operand token = .complete phrase) :
    token.kind = .finish ∧
      ∃ lists, AreLists tokens lists ∧ phrase = .node .sequence [] context.start lists := by
  unfold atOperator at hs
  split at hs
  iterate 4 next => exact Step.noConfusion hs
  split at hs
  next => exact Step.noConfusion hs
  dsimp only at hs
  split at hs
  next hopened =>
    unfold atListEnd at hs
    split at hs
    next => exact Step.noConfusion hs
    next hk =>
      obtain rfl := Step.complete.inj hs
      obtain ⟨before, current, rfl, hitems, hlist⟩ := h.isList hf hopened
      exact ⟨hk, _, hitems.areLists (.single hlist), rfl⟩
    next => exact Step.noConfusion hs
  next =>
    split at hs
    next => exact Step.noConfusion hs
    next => exact Step.noConfusion hs

/-- A phrase is complete at the end mark, and the tokens that have been read are its lists. -/
theorem areLists_of_step {state : State} {tokens : List Token} {token : Token} {phrase : Phrase}
    (h : state.Reads tokens) (hs : step state token = .complete phrase) :
    token.kind = .finish ∧
      ∃ lists, AreLists tokens lists ∧ phrase = .node .sequence [] state.context.start lists := by
  obtain ⟨expecting, context⟩ := state
  cases expecting with
  | list => exact absurd hs atList_ne_complete
  | afterNumber number =>
    obtain ⟨-, -, hnumber, hreads⟩ := h
    unfold step afterNumber at hs
    dsimp only at hs
    split at hs
    next => exact absurd hs atList_ne_complete
    next => exact areLists_of_atOperator hreads (.number hnumber) hs
  | operand => exact absurd hs atOperand_ne_complete
  | afterSign sign =>
    unfold step afterSign at hs
    dsimp only at hs
    split at hs
    next => exact Step.noConfusion hs
    next => exact absurd hs unexpected_ne_complete
  | operator operand =>
    obtain ⟨own, hf, hreads⟩ := h
    exact areLists_of_atOperator hreads hf hs

/-! ## 6. Runs -/

theorem start_of_atOperand {context : Context} {token : Token} {state : State}
    (hs : atOperand context token = .next state) : state.context.start = context.start := by
  unfold atOperand at hs
  split at hs
  iterate 4 next => rw [← Step.next.inj hs]
  next => exact absurd hs unexpected_ne_next

theorem start_of_atList {context : Context} {token : Token} {state : State}
    (hs : atList context token = .next state) : state.context.start = context.start := by
  unfold atList at hs
  dsimp only at hs
  split at hs
  next => rw [← Step.next.inj hs]
  next =>
    have hstart := start_of_atOperand hs
    exact hstart

theorem start_of_atOperator {context : Context} {operand : Phrase} {token : Token} {state : State}
    (hs : atOperator context operand token = .next state) : state.context.start = context.start := by
  unfold atOperator atListEnd at hs
  dsimp only at hs
  repeat' split at hs
  all_goals first
    | exact Step.noConfusion hs
    | rw [← Step.next.inj hs]

/-- The position of the first token is kept. -/
theorem start_of_step {state next : State} {token : Token} (hs : step state token = .next next) :
    next.context.start = state.context.start := by
  obtain ⟨expecting, context⟩ := state
  cases expecting with
  | list => exact start_of_atList hs
  | afterNumber number =>
    unfold step afterNumber at hs
    dsimp only at hs
    split at hs
    next =>
      have hstart := start_of_atList hs
      exact hstart
    next => exact start_of_atOperator hs
  | operand => exact start_of_atOperand hs
  | afterSign sign =>
    unfold step afterSign at hs
    dsimp only at hs
    split at hs
    next => rw [← Step.next.inj hs]
    next => exact absurd hs unexpected_ne_next
  | operator operand => exact start_of_atOperator hs

/-- A run that succeeds at the end mark has read lists of all tokens before it. -/
theorem areLists_of_run {state : State} {done tokens : List Token} {mark : Token} {phrase : Phrase}
    (h : state.Reads done) (htokens : ∀ token ∈ tokens, token.kind ≠ .finish)
    (hrun : (run state (tokens ++ [mark])).1 = .ok phrase) :
    ∃ lists, AreLists (done ++ tokens) lists ∧
      phrase = .node .sequence [] state.context.start lists := by
  -- Each step moves one token from those to come to those that have been read.
  induction tokens generalizing state done with
  | nil =>
    rw [List.nil_append, run] at hrun
    split at hrun
    next => exact nomatch hrun
    next hs =>
      obtain rfl := Except.ok.inj hrun
      rw [List.append_nil]
      exact (areLists_of_step h hs).2
    next => exact nomatch hrun
  | cons token tokens ih =>
    rw [List.cons_append, run] at hrun
    split at hrun
    next next hs =>
      have hrest := ih (reads_of_step h hs) (fun t ht => htokens t (List.mem_cons_of_mem _ ht)) hrun
      rwa [start_of_step hs, List.append_assoc] at hrest
    next hs => exact absurd (areLists_of_step h hs).1 (htokens token List.mem_cons_self)
    next => exact nomatch hrun

theorem exists_cons_of_areLists {tokens : List Token} {lists : List Phrase}
    (h : AreLists tokens lists) : ∃ first rest, tokens = first :: rest := by
  cases h with
  | single hlist => cases hlist <;> exact ⟨_, _, rfl⟩
  | more hlist => cases hlist <;> exact ⟨_, _, rfl⟩

/-- The reader only accepts what the grammar derives. -/
theorem isSequence_of_parse {tokens : List Token} {mark : Token} {phrase : Phrase}
    (htokens : ∀ token ∈ tokens, token.kind ≠ .finish)
    (hparse : (parse (tokens ++ [mark])).1 = .ok phrase) : IsSequence tokens phrase := by
  have hinitial (position : Nat) : (State.initial position).Reads [] := ⟨rfl, rfl, rfl, .nil⟩
  obtain ⟨lists, hlists, hphrase⟩ := areLists_of_run (hinitial _) htokens hparse
  obtain ⟨first, rest, rfl⟩ := exists_cons_of_areLists hlists
  rw [hphrase]
  exact .lists hlists

end DiceFormula.Reader
