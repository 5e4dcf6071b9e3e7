import DiceFormula.Proofs.Grammar.Soundness

/-!
# The first token that cannot be right

Whatever state the reader is in, a few more tokens make a whole phrase: an operand where one is
missing, and then a closing parenthesis for every open one. So everything read before a complaint
can still be continued, and with the token complained about it cannot. Only a minus sign is not yet
wrong itself; it is complained about for the sake of the token behind it.
-/

namespace DiceFormula.Reader

/-! ## 1. Accepted lists -/

/-- The end mark is the last token, and no other token is one. -/
def Ended (tokens : List Token) : Prop :=
  ∃ front mark, tokens = front ++ [mark] ∧ (∀ token ∈ front, token.kind ≠ .finish) ∧
    mark.kind = .finish

/-- A list of tokens with its end mark at the end that is read as a phrase. -/
structure Accepted (tokens : List Token) : Prop where
  ended : Ended tokens
  read : ∃ phrase, (parse tokens).1 = .ok phrase

/-- Some accepted list begins with the given tokens. -/
def Viable (tokens : List Token) : Prop :=
  ∃ more, Accepted (tokens ++ more)

theorem Ended.exists_mark {tokens : List Token} (h : Ended tokens) :
    ∃ mark ∈ tokens, mark.kind = .finish := by
  obtain ⟨front, mark, rfl, -, hmark⟩ := h
  exact ⟨mark, List.mem_append_right front List.mem_cons_self, hmark⟩

/-! ## 2. What a step can do -/

theorem next_of_atOperand {context : Context} {token : Token} {next : State}
    (h : atOperand context token = .next next) :
    token.kind ≠ .finish ∧
      ∀ sign, next.expecting = .afterSign sign → sign = token ∧ token.kind = .minus := by
  unfold atOperand at h
  split at h
  next hk =>
    obtain rfl := Step.next.inj h
    exact ⟨by simp [hk], fun sign hsign => (nomatch hsign)⟩
  next hk =>
    obtain rfl := Step.next.inj h
    exact ⟨by simp [hk], fun sign hsign => (nomatch hsign)⟩
  next hk =>
    obtain rfl := Step.next.inj h
    exact ⟨by simp [hk], fun sign hsign => ⟨(Expecting.afterSign.inj hsign).symm, hk⟩⟩
  next hk =>
    obtain rfl := Step.next.inj h
    exact ⟨by simp [hk], fun sign hsign => (nomatch hsign)⟩
  next => exact absurd h unexpected_ne_next

theorem next_of_atOperator {context : Context} {operand : Phrase} {token : Token} {next : State}
    (h : atOperator context operand token = .next next) :
    token.kind ≠ .finish ∧ ∀ sign, next.expecting ≠ .afterSign sign := by
  unfold atOperator atListEnd at h
  dsimp only at h
  repeat' split at h
  all_goals first
    | exact Step.noConfusion h
    | (obtain rfl := Step.next.inj h
       exact ⟨by simp_all, fun sign hsign => nomatch hsign⟩)

theorem next_of_atList {context : Context} {token : Token} {next : State}
    (h : atList context token = .next next) :
    token.kind ≠ .finish ∧
      ∀ sign, next.expecting = .afterSign sign → sign = token ∧ token.kind = .minus := by
  unfold atList at h
  dsimp only at h
  split at h
  next hk =>
    obtain rfl := Step.next.inj h
    exact ⟨by simp [hk], fun sign hsign => (nomatch hsign)⟩
  next => exact next_of_atOperand h

/-- The reader goes on behind any token but the end mark. It waits for the rest of a number only
behind a minus sign that stands where an operand is expected. -/
theorem next_of_step {state next : State} {token : Token} (h : step state token = .next next) :
    token.kind ≠ .finish ∧ ∀ sign, next.expecting = .afterSign sign →
      sign = token ∧ token.kind = .minus ∧ (state.expecting = .list ∨ state.expecting = .operand) := by
  obtain ⟨expecting, context⟩ := state
  cases expecting with
  | list =>
    obtain ⟨hkind, hsign⟩ := next_of_atList h
    exact ⟨hkind, fun sign hs => ⟨(hsign sign hs).1, (hsign sign hs).2, .inl rfl⟩⟩
  | afterNumber number =>
    unfold step afterNumber at h
    dsimp only at h
    split at h
    next hcount =>
      -- A number in front of an operand is a count, and a minus sign begins no such operand.
      obtain ⟨hkind, hsign⟩ := next_of_atList h
      refine ⟨hkind, fun sign hs => ?_⟩
      obtain ⟨-, hbegins⟩ := Bool.and_eq_true_iff.mp hcount
      rw [(hsign sign hs).2] at hbegins
      exact nomatch hbegins
    next =>
      obtain ⟨hkind, hno⟩ := next_of_atOperator h
      exact ⟨hkind, fun sign hs => absurd hs (hno sign)⟩
  | operand =>
    obtain ⟨hkind, hsign⟩ := next_of_atOperand h
    exact ⟨hkind, fun sign hs => ⟨(hsign sign hs).1, (hsign sign hs).2, .inr rfl⟩⟩
  | afterSign sign =>
    unfold step afterSign at h
    dsimp only at h
    split at h
    next hnumber =>
      obtain rfl := Step.next.inj h
      refine ⟨fun hfinish => ?_, fun sign hs => (nomatch hs)⟩
      rw [hfinish] at hnumber
      exact nomatch hnumber
    next => exact absurd h unexpected_ne_next
  | operator operand =>
    obtain ⟨hkind, hno⟩ := next_of_atOperator h
    exact ⟨hkind, fun sign hs => absurd hs (hno sign)⟩

theorem refuse_of_unexpected {token culprit : Token} {more others : List Token}
    {complaint : Complaint} (h : unexpected token more = .refuse complaint culprit others) :
    culprit = token ∧ others = more := by
  unfold unexpected at h
  split at h <;>
  · obtain ⟨-, rfl, rfl⟩ := Step.refuse.inj h
    exact ⟨rfl, rfl⟩

theorem refuse_of_atOperand {context : Context} {token culprit : Token} {more : List Token}
    {complaint : Complaint} (h : atOperand context token = .refuse complaint culprit more) :
    culprit = token ∧ more = [] ∧ token.kind ≠ .minus := by
  unfold atOperand at h
  split at h
  iterate 4 next => exact Step.noConfusion h
  next hminus _ =>
    obtain ⟨hculprit, hmore⟩ := refuse_of_unexpected h
    exact ⟨hculprit, hmore, hminus⟩

theorem refuse_of_atList {context : Context} {token culprit : Token} {more : List Token}
    {complaint : Complaint} (h : atList context token = .refuse complaint culprit more) :
    culprit = token ∧ more = [] ∧ token.kind ≠ .minus := by
  unfold atList at h
  dsimp only at h
  split at h
  next => exact Step.noConfusion h
  next => exact refuse_of_atOperand h

theorem refuse_of_atOperator {context : Context} {operand : Phrase} {token culprit : Token}
    {more : List Token} {complaint : Complaint}
    (h : atOperator context operand token = .refuse complaint culprit more) :
    culprit = token ∧ more = [] ∧ token.kind ≠ .minus := by
  unfold atOperator atListEnd at h
  dsimp only at h
  repeat' split at h
  all_goals first
    | exact Step.noConfusion h
    | (obtain ⟨-, rfl, rfl⟩ := Step.refuse.inj h
       exact ⟨rfl, rfl, by assumption⟩)

/-- The token at hand is complained about, unless it stands behind a minus sign that waits for a
number: then the sign is. -/
theorem refuse_of_step {state : State} {token culprit : Token} {more : List Token}
    {complaint : Complaint} (h : step state token = .refuse complaint culprit more) :
    (culprit = token ∧ more = [] ∧ token.kind ≠ .minus) ∨
      (state.expecting = .afterSign culprit ∧ more = [token]) := by
  obtain ⟨expecting, context⟩ := state
  cases expecting with
  | list => exact .inl (refuse_of_atList h)
  | afterNumber number =>
    unfold step afterNumber at h
    dsimp only at h
    split at h
    next => exact .inl (refuse_of_atList h)
    next => exact .inl (refuse_of_atOperator h)
  | operand => exact .inl (refuse_of_atOperand h)
  | afterSign sign =>
    unfold step afterSign at h
    dsimp only at h
    split at h
    next => exact Step.noConfusion h
    next =>
      obtain ⟨rfl, rfl⟩ := refuse_of_unexpected h
      exact .inr ⟨rfl, rfl⟩
  | operator operand => exact .inl (refuse_of_atOperator h)

/-! ## 3. Runs -/

/-- The state that some tokens lead to, if the phrase goes on behind each of them. -/
def State.after : State → List Token → Option State
  | state, [] => some state
  | state, token :: rest =>
      match step state token with
      | .next state => State.after state rest
      | _ => none

theorem State.exists_step_of_after {state reached : State} {token : Token} {rest : List Token}
    (h : state.after (token :: rest) = some reached) :
    ∃ next, step state token = .next next ∧ next.after rest = some reached := by
  simp only [State.after] at h
  split at h
  next next hs => exact ⟨next, hs, h⟩
  next => exact nomatch h

theorem State.after_append (state : State) (front rest : List Token) :
    state.after (front ++ rest) = (state.after front).bind (State.after · rest) := by
  induction front generalizing state with
  | nil => rfl
  | cons token front ih =>
    simp only [List.cons_append, State.after]
    cases step state token with
    | next next => exact ih next
    | complete | refuse => rfl

/-- One more token behind those that lead to a state. -/
theorem State.after_concat_eq_some_iff {state last : State} {front : List Token} {token : Token} :
    state.after (front ++ [token]) = some last ↔
      ∃ reached, state.after front = some reached ∧ step reached token = .next last := by
  rw [State.after_append, Option.bind_eq_some_iff]
  refine exists_congr fun reached => and_congr_right fun _ => ⟨fun h => ?_, fun h => ?_⟩
  · obtain ⟨next, hs, hnext⟩ := State.exists_step_of_after h
    rw [hs, Option.some.inj hnext]
  · rw [State.after, h]
    rfl

theorem run_of_after {state reached : State} {front : List Token}
    (h : state.after front = some reached) (rest : List Token) :
    run state (front ++ rest) = run reached rest := by
  induction front generalizing state with
  | nil => rw [← Option.some.inj h, List.nil_append]
  | cons token front ih =>
    obtain ⟨next, hs, hnext⟩ := State.exists_step_of_after h
    rw [List.cons_append, run, hs]
    exact ih hnext

/-- No end mark is among the tokens behind which the phrase goes on. -/
theorem kind_ne_finish_of_after {state reached : State} {front : List Token}
    (h : state.after front = some reached) : ∀ token ∈ front, token.kind ≠ .finish := by
  induction front generalizing state with
  | nil => exact fun _ hmem => nomatch hmem
  | cons token front ih =>
    obtain ⟨next, hs, hnext⟩ := State.exists_step_of_after h
    exact List.forall_mem_cons.mpr ⟨(next_of_step hs).1, ih hnext⟩

/-- A state that waits for the rest of a number has a minus sign right in front of it. -/
theorem exists_sign_of_after {position : Nat} {reached : State} {front : List Token} {sign : Token}
    (h : (State.initial position).after front = some reached)
    (hsign : reached.expecting = .afterSign sign) :
    ∃ before state, front = before ++ [sign] ∧ sign.kind = .minus ∧
      (State.initial position).after before = some state ∧
      (state.expecting = .list ∨ state.expecting = .operand) := by
  obtain rfl | ⟨before, token, rfl⟩ := List.eq_nil_or_concat front
  · obtain rfl := Option.some.inj h
    exact nomatch hsign
  · rw [List.concat_eq_append] at h ⊢
    obtain ⟨state, hbefore, hs⟩ := State.after_concat_eq_some_iff.mp h
    obtain ⟨rfl, hminus, hoperand⟩ := (next_of_step hs).2 sign hsign
    exact ⟨before, state, rfl, hminus, hbefore, hoperand⟩

/-- A run that fails goes on up to the token that is complained about. -/
theorem exists_refuse_of_run {state : State} {tokens left : List Token} {fault : ReadingFault}
    (h : run state tokens = (.error fault, left)) (hmark : ∃ mark ∈ tokens, mark.kind = .finish) :
    ∃ front token rest reached complaint culprit more, tokens = front ++ token :: rest ∧
      state.after front = some reached ∧ step reached token = .refuse complaint culprit more ∧
      fault = ⟨complaint, culprit.position⟩ ∧ left = culprit :: more ++ rest := by
  induction tokens generalizing state with
  | nil =>
    obtain ⟨mark, hmem, -⟩ := hmark
    cases hmem
  | cons token tokens ih =>
    rw [run] at h
    split at h
    next next hs =>
      -- The end mark is still to come, since nothing goes on behind it.
      obtain ⟨mark, hmem, hkind⟩ := hmark
      obtain rfl | hmem := List.mem_cons.mp hmem
      · exact absurd hkind (next_of_step hs).1
      obtain ⟨front, token', rest, reached, complaint, culprit, more, rfl, hafter, hrest⟩ :=
        ih h ⟨mark, hmem, hkind⟩
      refine ⟨token :: front, token', rest, reached, complaint, culprit, more, rfl, ?_, hrest⟩
      rw [State.after, hs]
      exact hafter
    next => cases h
    next complaint culprit more hs =>
      obtain ⟨hfault, rfl⟩ := Prod.mk.inj h
      exact ⟨[], token, tokens, state, complaint, culprit, more, rfl, rfl, hs,
        (Except.error.inj hfault).symm, rfl⟩

/-! ## 4. Continuations -/

/-- A number that touches what stands in front of it. -/
def one : Token :=
  { kind := .number, text := [ascii '1'], position := 0 }

def plus : Token :=
  { kind := .plus, text := [ascii '+'], position := 0 }

def closing : Token :=
  { kind := .closeParen, text := [ascii ')'], position := 0 }

/-- Some tokens, with no end mark among them, lead from the state to a complete phrase. -/
def State.CanEnd (state : State) : Prop :=
  ∃ more, (∀ token ∈ more, token.kind ≠ .finish) ∧
    ∀ mark, mark.kind = .finish → ∃ phrase, (run state (more ++ [mark])).1 = .ok phrase

theorem State.CanEnd.of_step {state next : State} {token : Token}
    (hs : step state token = .next next) (h : next.CanEnd) : state.CanEnd := by
  obtain ⟨more, hmore, hrun⟩ := h
  refine ⟨token :: more, List.forall_mem_cons.mpr ⟨(next_of_step hs).1, hmore⟩, fun mark hmark => ?_⟩
  rw [List.cons_append, run, hs]
  exact hrun mark hmark

/-- Behind an operand, it takes a closing parenthesis for every open one. -/
theorem canEnd_operator (context : Context) (operand : Phrase) :
    State.CanEnd ⟨.operator operand, context⟩ := by
  obtain ⟨start, items, counts, bodyStart, opened, chain⟩ := context
  induction opened generalizing operand chain with
  | nil =>
    refine ⟨[], fun _ hmem => (nomatch hmem), fun mark hmark => ?_⟩
    rw [List.nil_append, run]
    simp only [step, atOperator, atListEnd, hmark]
    exact ⟨_, rfl⟩
  | cons outer opened ih =>
    have hs (context : Context) (hopened : context.opened = outer :: opened) :
        step ⟨.operator operand, context⟩ closing = .next ⟨.operator
          (.node .group [] outer.2.position [context.chain.total operand]),
          { context with opened := opened, chain := outer.1 }⟩ := by
      simp only [step, atOperator, closing, hopened]
      rfl
    exact .of_step (hs _ rfl) (ih _ outer.1)

theorem canEnd_operand (context : Context) : State.CanEnd ⟨.operand, context⟩ := by
  have hs : step ⟨.operand, context⟩ one = .next ⟨.operator (integer one), context⟩ := rfl
  exact .of_step hs (canEnd_operator context _)

/-- Whatever has been read, the phrase can still be brought to an end. -/
theorem canEnd (state : State) : state.CanEnd := by
  obtain ⟨expecting, context⟩ := state
  have hnumber (number : Token) (context : Context) :
      State.CanEnd ⟨.afterNumber number, context⟩ := by
    have hs : step ⟨.afterNumber number, context⟩ plus = .next ⟨.operand, { context with
      chain := { sum := some ⟨context.chain.total (integer number), plus⟩ } }⟩ := rfl
    exact .of_step hs (canEnd_operand _)
  cases expecting with
  | list =>
    have hs : step ⟨.list, context⟩ one =
      .next ⟨.afterNumber one, { context with bodyStart := one.position }⟩ := rfl
    exact .of_step hs (hnumber one _)
  | afterNumber number => exact hnumber number context
  | operand => exact canEnd_operand context
  | afterSign sign =>
    have hs : step ⟨.afterSign sign, context⟩ one =
      .next ⟨.operator (signedInteger sign one), context⟩ := rfl
    exact .of_step hs (canEnd_operator context _)
  | operator operand => exact canEnd_operator context operand

/-! ## 5. The first wrong token -/

theorem parse_eq_run {position : Nat} {front : List Token} (hfront : front ≠ [])
    (hstart : ∀ first ∈ front.head?, first.position = position) (more : List Token) :
    parse (front ++ more) = run (State.initial position) (front ++ more) := by
  cases front with
  | nil => exact absurd rfl hfront
  | cons first rest =>
    rw [← hstart first rfl]
    rfl

theorem viable_of_after {position : Nat} {front : List Token} {reached : State}
    (hstart : ∀ first ∈ front.head?, first.position = position)
    (h : (State.initial position).after front = some reached) : Viable front := by
  by_cases hfront : front = []
  · -- The position is that of a token which is still to come, so any phrase will do.
    subst hfront
    exact ⟨[one, Token.endMark 0], ⟨[one], Token.endMark 0, rfl, by decide, rfl⟩, _, rfl⟩
  · obtain ⟨more, hmore, hrun⟩ := canEnd reached
    refine ⟨more ++ [Token.endMark 0], ⟨front ++ more, Token.endMark 0,
      (List.append_assoc _ _ _).symm, ?_, rfl⟩, ?_⟩
    · exact List.forall_mem_append.mpr ⟨kind_ne_finish_of_after h, hmore⟩
    · rw [parse_eq_run hfront hstart, run_of_after h]
      exact hrun _ rfl

theorem exists_next_of_beginsOperand {state : State} {token : Token}
    (hstate : state.expecting = .list ∨ state.expecting = .operand)
    (h : beginsOperand token.kind = true) : ∃ next, step state token = .next next := by
  obtain ⟨expecting, context⟩ := state
  simp only [beginsOperand, Bool.or_eq_true, decide_eq_true_eq] at h
  obtain (hk | hk) | hk := h <;> obtain rfl | rfl := hstate <;>
    simp only [step, atList, atOperand, hk] <;> exact ⟨_, rfl⟩

/-- Where an operand is expected, everything that one begins with can come next. -/
theorem viable_concat {position : Nat} {front : List Token} {reached : State} {token : Token}
    (hstart : ∀ first ∈ front.head?, first.position = position)
    (h : (State.initial position).after front = some reached)
    (hreached : reached.expecting = .list ∨ reached.expecting = .operand)
    (hbegins : beginsOperand token.kind = true) : Viable (front ++ [token]) := by
  cases front with
  | nil =>
    obtain ⟨next, hs⟩ : ∃ next, step (State.initial token.position) token = .next next :=
      exists_next_of_beginsOperand (.inl rfl) hbegins
    refine viable_of_after (fun first hfirst => ?_) (State.after_concat_eq_some_iff.mpr ⟨_, rfl, hs⟩)
    rw [Option.some.inj hfirst]
  | cons first rest =>
    obtain ⟨next, hs⟩ := exists_next_of_beginsOperand hreached hbegins
    exact viable_of_after hstart (State.after_concat_eq_some_iff.mpr ⟨reached, h, hs⟩)

theorem not_viable_of_refuse {position : Nat} {front : List Token} {reached : State}
    {token culprit : Token} {complaint : Complaint} {others : List Token}
    (hstart : ∀ first ∈ (front ++ [token]).head?, first.position = position)
    (h : (State.initial position).after front = some reached)
    (hs : step reached token = .refuse complaint culprit others) : ¬ Viable (front ++ [token]) := by
  rintro ⟨more, -, phrase, hphrase⟩
  rw [parse_eq_run (List.append_ne_nil_of_right_ne_nil _ (List.cons_ne_nil _ _)) hstart,
    List.append_assoc, run_of_after h, List.cons_append, run, hs] at hphrase
  cases hphrase

/-- A complaint about a list of tokens with its end mark at the end is about one of them. What
stands in front of that token begins some phrase, and no phrase begins with that token as well,
except that a minus sign is only wrong together with the token behind it: it then stands where
anything else that begins an operand could, and no number touches it. -/
theorem parse_fault_first {tokens left : List Token} {fault : ReadingFault} (htokens : Ended tokens)
    (h : parse tokens = (.error fault, left)) :
    ∃ front culprit rest, tokens = front ++ culprit :: rest ∧ left = culprit :: rest ∧
      fault.position = culprit.position ∧ Viable front ∧
      (culprit.kind ≠ .minus → ¬ Viable (front ++ [culprit])) ∧
      (culprit.kind = .minus → Viable (front ++ [culprit]) ∧
        (∀ token, beginsOperand token.kind = true → Viable (front ++ [token])) ∧
        ∃ next later, rest = next :: later ∧ ¬ Viable (front ++ [culprit, next])) := by
  obtain ⟨mark, hmem, -⟩ := htokens.exists_mark
  obtain ⟨first, others, rfl⟩ := List.exists_cons_of_ne_nil (List.ne_nil_of_mem hmem)
  have hstart (front rest : List Token) (hsplit : first :: others = front ++ rest) :
      ∀ token ∈ front.head?, token.position = first.position := by
    intro token htoken
    obtain ⟨_, rfl⟩ := List.head?_eq_some_iff.mp htoken
    rw [(List.cons.inj hsplit).1]
  obtain ⟨front, token, rest, reached, complaint, culprit, more, hsplit, hafter, hs, rfl, rfl⟩ :=
    exists_refuse_of_run h htokens.exists_mark
  have hwrong : ¬ Viable (front ++ [token]) :=
    not_viable_of_refuse (hstart _ rest (by rw [hsplit, List.append_assoc]; rfl)) hafter hs
  obtain ⟨rfl, rfl, hminus⟩ | ⟨hsign, rfl⟩ := refuse_of_step hs
  · exact ⟨front, culprit, rest, hsplit, rfl, rfl, viable_of_after (hstart _ _ hsplit) hafter,
      fun _ => hwrong, fun hkind => absurd hkind hminus⟩
  · obtain ⟨before, state, rfl, hkind, hbefore, hoperand⟩ := exists_sign_of_after hafter hsign
    have hviable := viable_of_after (hstart _ _ hsplit) hafter
    rw [List.append_assoc] at hsplit hwrong
    exact ⟨before, culprit, token :: rest, hsplit, rfl, rfl,
      viable_of_after (hstart _ _ hsplit) hbefore, fun hne => absurd hkind hne,
      fun _ => ⟨hviable, fun _ => viable_concat (hstart _ _ hsplit) hbefore hoperand,
        token, rest, rfl, hwrong⟩⟩

/-- The tokens of `3 - - 2`. -/
def looseSign : List Token :=
  [{ kind := .number, text := [51], position := 0 },
    { kind := .minus, text := [45], position := 2, spaced := true },
    { kind := .minus, text := [45], position := 4, spaced := true },
    { kind := .number, text := [50], position := 6, spaced := true },
    Token.endMark 7]

/-- The second minus sign is complained about and could still be the sign of a number, but not of
one behind a blank. -/
theorem viable_looseSign :
    Ended looseSign ∧ parse looseSign = (.error ⟨.unexpectedToken [45], 4⟩, looseSign.drop 2) ∧
      Viable (looseSign.take 3) ∧ ¬ Viable (looseSign.take 4) := by
  have hended : Ended looseSign := ⟨looseSign.take 4, Token.endMark 7, rfl, by decide, rfl⟩
  have hparse : parse looseSign = (.error ⟨.unexpectedToken [45], 4⟩, looseSign.drop 2) := rfl
  obtain ⟨front, culprit, rest, hsplit, hleft, -, -, -, hminus⟩ := parse_fault_first hended hparse
  obtain ⟨rfl, rfl⟩ := List.cons.inj hleft
  have hfront : front = looseSign.take 2 := List.append_cancel_right hsplit.symm
  subst hfront
  obtain ⟨hviable, -, next, later, hrest, hwrong⟩ := hminus rfl
  obtain ⟨rfl, -⟩ := List.cons.inj hrest
  exact ⟨hended, hparse, hviable, hwrong⟩

end DiceFormula.Reader
