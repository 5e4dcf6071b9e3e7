import DiceFormula.Phrase.Reader
import DiceFormula.Phrase.Relabel
import Mathlib.Data.List.Forall2

/-!
# Reading relabelled tokens

The reader decides by the kinds of tokens, and by the gap in front of a token only where a number or
a minus sign stands in front of the gap. Relabelled tokens with the same kinds and the same gaps
there take it through the same states up to the labels, so their phrase is the relabelled phrase.
-/

namespace DiceFormula.Reader

variable {r : Relabelling}

/-! ## 1. Tokens -/

/-- A gap between tokens of the given kinds decides how they are read: a number may be a count in
front of a gap, and a minus sign a sign where there is none. -/
def gapMatters (previous next : Kind) : Bool :=
  previous = .number && beginsOperand next || previous = .minus && next = .number

/-- A token of the same kind with the new text and position. The gaps in front may differ. -/
structure RelabelledToken (r : Relabelling) (token other : Token) : Prop where
  kind : other.kind = token.kind
  text : other.text = r.text token.text
  position : other.position = r.position token.position

/-- Relabelled tokens with the same gaps wherever gaps matter. A token of the given kind stands in
front of them. -/
inductive RelabelledTokens (r : Relabelling) : Kind → List Token → List Token → Prop where
  | nil {previous : Kind} : RelabelledTokens r previous [] []
  | cons {previous : Kind} {token other : Token} {tokens others : List Token} :
      RelabelledToken r token other →
      (gapMatters previous token.kind = true → other.spaced = token.spaced) →
      RelabelledTokens r token.kind tokens others →
      RelabelledTokens r previous (token :: tokens) (other :: others)

theorem relabelledTokens_map (previous : Kind) (tokens : List Token) :
    RelabelledTokens r previous tokens (tokens.map (Token.relabel r)) := by
  induction tokens generalizing previous with
  | nil => exact .nil
  | cons token tokens ih => exact .cons ⟨rfl, rfl, rfl⟩ (fun _ => rfl) (ih token.kind)

theorem RelabelledTokens.length_eq {previous : Kind} {tokens others : List Token}
    (h : RelabelledTokens r previous tokens others) : others.length = tokens.length := by
  induction h with
  | nil => rfl
  | cons _ _ _ ih => rw [List.length_cons, List.length_cons, ih]

/-! ## 2. Phrases made of tokens -/

variable {token other : Token}

theorem integer_relabelled (h : RelabelledToken r token other) :
    integer other = (integer token).relabel r := by
  rw [integer, integer, Phrase.relabel_node, h.text, h.position, List.map_nil]

theorem roll_relabelled (h : RelabelledToken r token other) :
    roll other = (roll token).relabel r := by
  rw [roll, roll, Phrase.relabel_node, h.text, h.position, List.map_nil]

theorem directive_relabelled (h : RelabelledToken r token other) :
    directive other = (directive token).relabel r := by
  rw [directive, directive, Phrase.relabel_node, h.text, h.position, List.map_nil]

theorem signedInteger_relabelled {sign sign' : Token} (hsign : RelabelledToken r sign sign')
    (h : RelabelledToken r token other) :
    signedInteger sign' other = (signedInteger sign token).relabel r := by
  rw [signedInteger, signedInteger, Phrase.relabel_node, r.text_signed, h.text, hsign.position,
    List.map_nil]

theorem addPart_relabel (part phrase : Phrase) :
    addPart (part.relabel r) (phrase.relabel r) = (addPart part phrase).relabel r := by
  cases phrase
  rw [addPart, Phrase.relabel_node, Phrase.relabel_node, addPart, List.map_append, List.map_singleton]

theorem repetition_relabelled (h : RelabelledToken r token other) (list : Phrase) :
    repetition other (list.relabel r) = (repetition token list).relabel r := by
  rw [repetition, repetition, Phrase.relabel_node, h.text, h.position, List.map_cons,
    List.map_singleton, integer_relabelled h]

/-! ## 3. Pending operations -/

structure RelabelledPending (r : Relabelling) (pending other : Pending) : Prop where
  left : other.left = pending.left.relabel r
  operator : RelabelledToken r pending.operator other.operator

structure RelabelledChain (r : Relabelling) (chain other : Chain) : Prop where
  sum : Option.Rel (RelabelledPending r) chain.sum other.sum
  product : Option.Rel (RelabelledPending r) chain.product other.product

theorem RelabelledPending.apply {pending other : Pending} (h : RelabelledPending r pending other)
    (right : Phrase) : other.apply (right.relabel r) = (pending.apply right).relabel r := by
  rw [Pending.apply, Pending.apply, Phrase.relabel_node, h.operator.text, h.operator.position, h.left,
    List.map_cons, List.map_singleton]

theorem relabelledChain_empty : RelabelledChain r {} {} :=
  ⟨.none, .none⟩

theorem RelabelledChain.term {chain other : Chain} (h : RelabelledChain r chain other)
    (factor : Phrase) : other.term (factor.relabel r) = (chain.term factor).relabel r := by
  obtain ⟨sum, product⟩ := chain
  obtain ⟨sum', product'⟩ := other
  cases h.product with
  | none => rfl
  | some hpending => exact hpending.apply factor

theorem RelabelledChain.total {chain other : Chain} (h : RelabelledChain r chain other)
    (factor : Phrase) : other.total (factor.relabel r) = (chain.total factor).relabel r := by
  have hterm := h.term factor
  obtain ⟨sum, product⟩ := chain
  obtain ⟨sum', product'⟩ := other
  cases h.sum with
  | none => exact hterm
  | some hpending =>
    simp only [Chain.total]
    rw [hterm, hpending.apply]

/-! ## 4. Contexts -/

structure RelabelledContext (r : Relabelling) (context other : Context) : Prop where
  start : other.start = r.position context.start
  items : other.items = context.items.map (Phrase.relabel r)
  counts : List.Forall₂ (RelabelledToken r) context.counts other.counts
  bodyStart : other.bodyStart = r.position context.bodyStart
  opened : List.Forall₂ (fun x y => RelabelledChain r x.1 y.1 ∧ RelabelledToken r x.2 y.2)
    context.opened other.opened
  chain : RelabelledChain r context.chain other.chain

theorem foldl_repetition_relabelled {counts others : List Token}
    (h : List.Forall₂ (RelabelledToken r) counts others) (list : Phrase) :
    others.foldl (fun list count => repetition count list) (list.relabel r) =
      (counts.foldl (fun list count => repetition count list) list).relabel r := by
  induction h generalizing list with
  | nil => rfl
  | cons hcount _ ih => rw [List.foldl_cons, List.foldl_cons, repetition_relabelled hcount, ih]

theorem RelabelledContext.list {context other : Context} (h : RelabelledContext r context other)
    (expression : Phrase) :
    other.list (expression.relabel r) = (context.list expression).relabel r := by
  rw [Context.list, Context.list, ← foldl_repetition_relabelled h.counts, Phrase.relabel_node,
    r.text_nil, h.bodyStart, List.map_singleton]

theorem RelabelledContext.sequence {context other : Context} (h : RelabelledContext r context other)
    (last : Phrase) : other.sequence (last.relabel r) = (context.sequence last).relabel r := by
  rw [Context.sequence, Context.sequence, Phrase.relabel_node, r.text_nil, h.start, h.items,
    List.map_append, List.map_reverse, List.map_singleton]

/-! ## 5. States and steps -/

/-- What is expected behind a token of the given kind. -/
inductive RelabelledExpecting (r : Relabelling) : Kind → Expecting → Expecting → Prop where
  | list {previous : Kind} : RelabelledExpecting r previous .list .list
  | afterNumber {number other : Token} : RelabelledToken r number other →
      RelabelledExpecting r .number (.afterNumber number) (.afterNumber other)
  | operand {previous : Kind} : RelabelledExpecting r previous .operand .operand
  | afterSign {sign other : Token} : RelabelledToken r sign other →
      RelabelledExpecting r .minus (.afterSign sign) (.afterSign other)
  | operator {previous : Kind} (operand : Phrase) :
      RelabelledExpecting r previous (.operator operand) (.operator (operand.relabel r))

structure RelabelledState (r : Relabelling) (previous : Kind) (state other : State) : Prop where
  expecting : RelabelledExpecting r previous state.expecting other.expecting
  context : RelabelledContext r state.context other.context

inductive RelabelledStep (r : Relabelling) (previous : Kind) : Step → Step → Prop where
  | next {state other : State} : RelabelledState r previous state other →
      RelabelledStep r previous (.next state) (.next other)
  | complete (phrase : Phrase) :
      RelabelledStep r previous (.complete phrase) (.complete (phrase.relabel r))
  | refuse (complaint : Complaint) {culprit other : Token} {more others : List Token} :
      RelabelledToken r culprit other → others.length = more.length →
      RelabelledStep r previous (.refuse complaint culprit more)
        (.refuse (complaint.relabel r) other others)

variable {context context' : Context} {previous : Kind}

theorem unexpected_relabelled (h : RelabelledToken r token other) {more others : List Token}
    (hmore : others.length = more.length) :
    RelabelledStep r previous (unexpected token more) (unexpected other others) := by
  unfold unexpected
  rw [h.kind]
  split
  next => exact .refuse .unexpectedEnd h hmore
  next =>
    rw [h.text]
    exact .refuse (.unexpectedToken token.text) h hmore

theorem atOperand_relabelled (h : RelabelledContext r context context')
    (htoken : RelabelledToken r token other) :
    RelabelledStep r token.kind (atOperand context token) (atOperand context' other) := by
  unfold atOperand
  rw [htoken.kind]
  cases hk : token.kind with
  | roll =>
    dsimp only
    rw [roll_relabelled htoken]
    exact .next ⟨.operator _, h⟩
  | number =>
    dsimp only
    rw [integer_relabelled htoken]
    exact .next ⟨.operator _, h⟩
  | minus => exact .next ⟨.afterSign htoken, h⟩
  | openParen =>
    exact .next ⟨.operand, { h with
      opened := .cons ⟨h.chain, htoken⟩ h.opened
      chain := relabelledChain_empty }⟩
  | directive | plus | star | slash | closeParen | comma | finish =>
    exact unexpected_relabelled htoken rfl

theorem atList_relabelled (h : RelabelledContext r context context')
    (htoken : RelabelledToken r token other) :
    RelabelledStep r token.kind (atList context token) (atList context' other) := by
  have hbody : RelabelledContext r { context with bodyStart := token.position }
      { context' with bodyStart := other.position } := { h with bodyStart := htoken.position }
  have hoperand := atOperand_relabelled hbody htoken
  unfold atList
  dsimp only
  rw [htoken.kind]
  split
  next hk =>
    rw [hk]
    exact .next ⟨.afterNumber htoken, hbody⟩
  next => exact hoperand

theorem atListEnd_relabelled (h : RelabelledContext r context context')
    (htoken : RelabelledToken r token other) (expression : Phrase) :
    RelabelledStep r token.kind (atListEnd context expression token)
      (atListEnd context' (expression.relabel r) other) := by
  unfold atListEnd
  rw [htoken.kind, h.list]
  split
  next =>
    refine .next ⟨.list, { h with items := ?_, counts := .nil, chain := relabelledChain_empty }⟩
    rw [h.items, List.map_cons]
  next =>
    rw [h.sequence]
    exact .complete _
  next => exact .refuse .trailingText htoken rfl

theorem group_relabelled {opening opening' : Token} (h : RelabelledToken r opening opening')
    (inner : Phrase) :
    Phrase.node .group [] opening'.position [inner.relabel r] =
      (Phrase.node .group [] opening.position [inner]).relabel r := by
  rw [Phrase.relabel_node, r.text_nil, h.position, List.map_singleton]

theorem atOperator_relabelled (h : RelabelledContext r context context')
    (htoken : RelabelledToken r token other) (operand : Phrase) :
    RelabelledStep r token.kind (atOperator context operand token)
      (atOperator context' (operand.relabel r) other) := by
  have hproduct : RelabelledStep r token.kind
      (.next ⟨.operand, { context with
        chain := { context.chain with product := some ⟨context.chain.term operand, token⟩ } }⟩)
      (.next ⟨.operand, { context' with
        chain := { context'.chain with
          product := some ⟨context'.chain.term (operand.relabel r), other⟩ } }⟩) :=
    .next ⟨.operand, { h with chain := ⟨h.chain.sum, .some ⟨h.chain.term operand, htoken⟩⟩ }⟩
  have hsum : RelabelledStep r token.kind
      (.next ⟨.operand, { context with
        chain := { sum := some ⟨context.chain.total operand, token⟩ } }⟩)
      (.next ⟨.operand, { context' with
        chain := { sum := some ⟨context'.chain.total (operand.relabel r), other⟩ } }⟩) :=
    .next ⟨.operand, { h with chain := ⟨.some ⟨h.chain.total operand, htoken⟩, .none⟩ }⟩
  unfold atOperator
  rw [htoken.kind, h.chain.total, Phrase.rule_relabel]
  split
  next => exact hproduct
  next => exact hproduct
  next =>
    rw [← h.chain.total]
    exact hsum
  next =>
    rw [← h.chain.total]
    exact hsum
  next kind _ _ _ _ =>
    split
    next =>
      rw [directive_relabelled htoken, addPart_relabel]
      exact .next ⟨.operator _, h⟩
    next =>
      have hend := atListEnd_relabelled h htoken (context.chain.total operand)
      have hopened := h.opened
      dsimp only
      -- The latest open parenthesis decides, if there is one.
      cases hc : context.opened with
      | nil =>
        rw [hc] at hopened
        rw [List.forall₂_nil_left_iff.mp hopened]
        exact hend
      | cons first opened =>
        rw [hc] at hopened
        obtain ⟨first', opened', ⟨houter, hopening⟩, hrest, hc'⟩ :=
          List.forall₂_cons_left_iff.mp hopened
        rw [hc']
        dsimp only
        split
        next =>
          rw [group_relabelled hopening]
          exact .next ⟨.operator _, { h with opened := hrest, chain := houter }⟩
        next => exact .refuse .unclosedParen htoken rfl

/-- Related states make related steps if the gaps agree where they matter. -/
theorem step_relabelled {state state' : State} (h : RelabelledState r previous state state')
    (htoken : RelabelledToken r token other)
    (hgap : gapMatters previous token.kind = true → other.spaced = token.spaced) :
    RelabelledStep r token.kind (step state token) (step state' other) := by
  obtain ⟨expecting, context⟩ := state
  obtain ⟨expecting', context'⟩ := state'
  obtain ⟨hexpecting, hcontext⟩ := h
  cases hexpecting with
  | list => exact atList_relabelled hcontext htoken
  | operand => exact atOperand_relabelled hcontext htoken
  | operator operand => exact atOperator_relabelled hcontext htoken operand
  | @afterNumber number number' hnumber =>
    have hlist : RelabelledContext r { context with counts := number :: context.counts }
        { context' with counts := number' :: context'.counts } :=
      { hcontext with counts := .cons hnumber hcontext.counts }
    have hcount : (other.spaced && beginsOperand other.kind) =
        (token.spaced && beginsOperand token.kind) := by
      rw [htoken.kind]
      cases hbegins : beginsOperand token.kind with
      | false => rw [Bool.and_false, Bool.and_false]
      | true => rw [hgap (by simp [gapMatters, hbegins])]
    simp only [step, afterNumber, hcount]
    split
    next => exact atList_relabelled hlist htoken
    next =>
      rw [integer_relabelled hnumber]
      exact atOperator_relabelled hcontext htoken (integer number)
  | @afterSign sign sign' hsign =>
    have htouches : (decide (other.kind = .number) && !other.spaced) =
        (decide (token.kind = .number) && !token.spaced) := by
      rw [htoken.kind]
      by_cases hnumber : token.kind = .number
      · rw [hgap (by simp [gapMatters, hnumber])]
      · rw [decide_eq_false hnumber, Bool.false_and, Bool.false_and]
    simp only [step, afterSign, htouches]
    split
    next =>
      rw [signedInteger_relabelled hsign htoken]
      exact .next ⟨.operator _, hcontext⟩
    next => exact unexpected_relabelled hsign rfl

/-! ## 6. Runs -/

/-- An answer with new labels. -/
def relabelAnswer (r : Relabelling) (answer : Except ReadingFault Phrase) :
    Except ReadingFault Phrase :=
  (answer.map (Phrase.relabel r)).mapError (ReadingFault.relabel r)

theorem run_relabelled {state state' : State} {tokens others : List Token}
    (h : RelabelledState r previous state state') (htokens : RelabelledTokens r previous tokens others) :
    (run state' others).1 = relabelAnswer r (run state tokens).1 ∧
      (run state' others).2.length = (run state tokens).2.length := by
  induction htokens generalizing state state' with
  | nil =>
    rw [run, run, relabelAnswer]
    refine ⟨?_, rfl⟩
    show _ = Except.error (ReadingFault.mk _ (r.position 0))
    rw [r.position_zero]
    rfl
  | @cons previous token other tokens others htoken hgap htokens ih =>
    have hstep := step_relabelled h htoken hgap
    rw [run, run]
    generalize step state token = result at hstep ⊢
    generalize step state' other = result' at hstep ⊢
    cases hstep with
    | next hstate => exact ih hstate
    | complete phrase => exact ⟨rfl, congrArg Nat.succ htokens.length_eq⟩
    | refuse complaint hculprit hmore =>
      dsimp only
      refine ⟨?_, ?_⟩
      · rw [hculprit.position]
        rfl
      · rw [List.length_append, List.length_append, List.length_cons, List.length_cons, hmore,
          htokens.length_eq]

/-- The reader's answer for relabelled tokens is its relabelled answer, and it leaves as many of
them. -/
theorem parse_relabelled {tokens others : List Token}
    (h : RelabelledTokens r .comma tokens others) :
    (parse others).1 = relabelAnswer r (parse tokens).1 ∧
      (parse others).2.length = (parse tokens).2.length := by
  have hinitial {start start' : Nat} (hstart : start' = r.position start) :
      RelabelledState r .comma (.initial start) (.initial start') :=
    ⟨.list, ⟨hstart, rfl, .nil, r.position_zero.symm, .nil, relabelledChain_empty⟩⟩
  cases h with
  | nil => exact run_relabelled (hinitial r.position_zero.symm) .nil
  | cons htoken hgap htokens =>
    exact run_relabelled (hinitial htoken.position) (.cons htoken hgap htokens)

end DiceFormula.Reader
