import DiceFormula.Proofs.Grammar.Completeness
import DiceFormula.Proofs.Grammar.Viable
import DiceFormula.Resume
import Mathlib.Order.Monotone.Basic

/-!
# Reading tokens again

Wherever the reader stops, it has come no further than the first end mark, and what stands behind
that mark makes no difference. It can be called again on the tokens that are left: each call reads
on, or is repeated for ever with the same complaint.
-/

namespace DiceFormula.Reader

/-! ## 1. One call -/

theorem finish_of_atOperator {context : Context} {operand phrase : Phrase} {token : Token}
    (h : atOperator context operand token = .complete phrase) : token.kind = .finish := by
  unfold atOperator atListEnd at h
  dsimp only at h
  repeat' split at h
  all_goals first
    | exact Step.noConfusion h
    | assumption

/-- A phrase is complete at the end mark only. -/
theorem finish_of_step {state : State} {token : Token} {phrase : Phrase}
    (h : step state token = .complete phrase) : token.kind = .finish := by
  obtain ⟨expecting, context⟩ := state
  cases expecting with
  | list => exact absurd h atList_ne_complete
  | afterNumber number =>
    unfold step afterNumber at h
    dsimp only at h
    split at h
    next => exact absurd h atList_ne_complete
    next => exact finish_of_atOperator h
  | operand => exact absurd h atOperand_ne_complete
  | afterSign sign =>
    unfold step afterSign at h
    dsimp only at h
    split at h
    next => exact Step.noConfusion h
    next => exact absurd h unexpected_ne_complete
  | operator operand => exact finish_of_atOperator h

/-- Where reading stops: at the end mark behind a whole phrase, and otherwise at the token that is
complained about. The tokens that are left in front of the mark are given. -/
structure StopsBefore (mark : Token) (answer : Except ReadingFault Phrase) (left : List Token) :
    Prop where
  accepted : ∀ phrase, answer = .ok phrase → left = []
  refused : ∀ fault, answer = .error fault →
    ∃ culprit rest, left ++ [mark] = culprit :: rest ∧ fault.position = culprit.position

variable {front : List Token} {mark : Token}

theorem StopsBefore.refuse (complaint : Complaint) {left rest : List Token} {culprit : Token}
    (h : left ++ [mark] = culprit :: rest) :
    StopsBefore mark (.error ⟨complaint, culprit.position⟩) left where
  accepted _ hanswer := nomatch hanswer
  refused fault hanswer := ⟨culprit, rest, h, by rw [← Except.error.inj hanswer]⟩

/-- A run stops in front of the end mark or at it, whatever follows the mark. Only a sign that has
been read already may be given back. -/
theorem run_before_mark (hfront : ∀ token ∈ front, token.kind ≠ .finish) (hmark : mark.kind = .finish)
    (state : State) :
    ∃ answer left, StopsBefore mark answer left ∧
      (left <:+ front ∨ ∃ sign, state.expecting = .afterSign sign ∧ left = sign :: front) ∧
      ∀ behind, run state (front ++ mark :: behind) = (answer, left ++ mark :: behind) := by
  induction front generalizing state with
  | nil =>
    cases hs : step state mark with
    | next next => exact absurd hmark (next_of_step hs).1
    | complete phrase =>
      refine ⟨.ok phrase, [], ⟨fun _ _ => rfl, fun _ h => (nomatch h)⟩, .inl List.suffix_rfl, ?_⟩
      intro behind
      rw [List.nil_append, run, hs]
    | refuse complaint culprit more =>
      obtain ⟨rfl, rfl, -⟩ | ⟨hsign, rfl⟩ := refuse_of_step hs
      · exact ⟨_, [], .refuse complaint (List.nil_append _), .inl List.suffix_rfl,
          fun behind => by rw [List.nil_append, run, hs]; rfl⟩
      · exact ⟨_, [culprit], .refuse complaint rfl, .inr ⟨culprit, hsign, rfl⟩,
          fun behind => by rw [List.nil_append, run, hs]; rfl⟩
  | cons token front ih =>
    obtain ⟨htoken, hrest⟩ := List.forall_mem_cons.mp hfront
    cases hs : step state token with
    | next next =>
      obtain ⟨answer, left, hstops, hleft, hrun⟩ := ih hrest next
      refine ⟨answer, left, hstops, .inl ?_, fun behind => ?_⟩
      · -- A sign that is given back is the token before.
        obtain hsuffix | ⟨sign, hsign, rfl⟩ := hleft
        · exact hsuffix.trans (List.suffix_cons token front)
        · obtain rfl := ((next_of_step hs).2 sign hsign).1
          exact List.suffix_rfl
      · rw [List.cons_append, run_of_step _ hs, hrun]
    | complete phrase => exact absurd (finish_of_step hs) htoken
    | refuse complaint culprit more =>
      obtain ⟨rfl, rfl, -⟩ | ⟨hsign, rfl⟩ := refuse_of_step hs
      · exact ⟨_, culprit :: front, .refuse complaint rfl, .inl List.suffix_rfl,
          fun behind => by rw [List.cons_append, run, hs]; rfl⟩
      · exact ⟨_, culprit :: token :: front, .refuse complaint rfl, .inr ⟨culprit, hsign, rfl⟩,
          fun behind => by rw [List.cons_append, run, hs]; rfl⟩

/-- One call stops in front of the end mark or at it, whatever follows the mark. -/
theorem parse_before_mark (hfront : ∀ token ∈ front, token.kind ≠ .finish)
    (hmark : mark.kind = .finish) :
    ∃ answer left, StopsBefore mark answer left ∧ left <:+ front ∧
      ∀ behind, parse (front ++ mark :: behind) = (answer, left ++ mark :: behind) := by
  obtain ⟨start, hstart⟩ : ∃ start, ∀ behind, parse (front ++ mark :: behind) =
      run (State.initial start) (front ++ mark :: behind) := by
    cases front with
    | nil => exact ⟨mark.position, fun _ => rfl⟩
    | cons first rest => exact ⟨first.position, fun _ => rfl⟩
  obtain ⟨answer, left, hstops, hleft, hrun⟩ := run_before_mark hfront hmark (State.initial start)
  refine ⟨answer, left, hstops, ?_, fun behind => (hstart behind).trans (hrun behind)⟩
  obtain hsuffix | ⟨sign, hsign, -⟩ := hleft
  · exact hsuffix
  · exact nomatch hsign

theorem parse_mark (hmark : mark.kind = .finish) (behind : List Token) :
    parse (mark :: behind) = (.error ⟨.unexpectedEnd, mark.position⟩, mark :: behind) := by
  simp only [parse, run, State.initial, step, atList, atOperand, unexpected, hmark, List.cons_append,
    List.nil_append]

/-! ## 2. Many calls -/

/-- Where one call begins and where it stops, by the indices. -/
structure CallsAt (front : List Token) (mark : Token) (index next : Nat)
    (answer : Except ReadingFault Phrase) : Prop where
  advances : index ≤ next
  inside : next ≤ front.length
  stops : StopsBefore mark answer (front.drop next)
  parsed : ∀ behind, parse (front.drop index ++ mark :: behind) =
    (answer, front.drop next ++ mark :: behind)

theorem exists_callsAt (hfront : ∀ token ∈ front, token.kind ≠ .finish) (hmark : mark.kind = .finish)
    {index : Nat} (hindex : index ≤ front.length) :
    ∃ next answer, CallsAt front mark index next answer := by
  have hrest : ∀ token ∈ front.drop index, token.kind ≠ .finish :=
    fun token htoken => hfront token (List.mem_of_mem_drop htoken)
  obtain ⟨answer, left, hstops, hsuffix, hparse⟩ := parse_before_mark hrest hmark
  have hlength := hsuffix.length_le
  rw [List.length_drop] at hlength
  have hleft : left = front.drop (front.length - left.length) :=
    List.suffix_iff_eq_drop.mp (hsuffix.trans (List.drop_suffix index front))
  rw [hleft] at hstops hparse
  exact ⟨front.length - left.length, answer, by omega, Nat.sub_le _ _, hstops, hparse⟩

/-- The index that the reader has come to after some calls: the number of tokens in front of those
that are left. Only the end mark is put behind the tokens for this. -/
def indexAfter (front : List Token) (mark : Token) (i : Nat) : Nat :=
  (front ++ [mark]).length - (leftAfter parse i (front ++ [mark])).length

theorem indexAfter_eq {i index : Nat} (hindex : index ≤ front.length)
    (h : leftAfter parse i (front ++ [mark]) = front.drop index ++ [mark]) :
    indexAfter front mark i = index := by
  rw [indexAfter, h, List.length_append, List.length_append, List.length_drop]
  omega

/-- What is left after some calls is what stands behind the index. -/
theorem leftAfter_eq_drop (hfront : ∀ token ∈ front, token.kind ≠ .finish)
    (hmark : mark.kind = .finish) (i : Nat) :
    indexAfter front mark i ≤ front.length ∧
      ∀ behind, leftAfter parse i (front ++ mark :: behind) =
        front.drop (indexAfter front mark i) ++ mark :: behind := by
  suffices h : ∃ index ≤ front.length, ∀ behind, leftAfter parse i (front ++ mark :: behind) =
      front.drop index ++ mark :: behind by
    obtain ⟨index, hindex, hleft⟩ := h
    rw [indexAfter_eq hindex (hleft [])]
    exact ⟨hindex, hleft⟩
  induction i with
  | zero => exact ⟨0, Nat.zero_le _, fun _ => rfl⟩
  | succ i ih =>
    obtain ⟨index, hindex, hleft⟩ := ih
    obtain ⟨next, answer, hcall⟩ := exists_callsAt hfront hmark hindex
    refine ⟨next, hcall.inside, fun behind => ?_⟩
    rw [leftAfter_succ, hleft, hcall.parsed]

theorem callsAt_indexAfter (hfront : ∀ token ∈ front, token.kind ≠ .finish)
    (hmark : mark.kind = .finish) (i : Nat) :
    CallsAt front mark (indexAfter front mark i) (indexAfter front mark (i + 1))
      (answerAt parse i (front ++ [mark])) := by
  obtain ⟨hindex, hleft⟩ := leftAfter_eq_drop hfront hmark i
  obtain ⟨next, answer, hcall⟩ := exists_callsAt hfront hmark hindex
  have hnext : leftAfter parse (i + 1) (front ++ [mark]) = front.drop next ++ [mark] := by
    rw [leftAfter_succ, hleft, hcall.parsed]
  have hanswer : answerAt parse i (front ++ [mark]) = answer := by
    rw [answerAt, hleft, hcall.parsed]
  rw [indexAfter_eq hcall.inside hnext, hanswer]
  exact hcall

/-! ## 3. All calls -/

/-- Calling the reader again and again on tokens with an end mark behind them: the index of the
first token that is left before each call, and the answer of each call, both counted from zero. What
stands behind the mark is arbitrary everywhere, so none of it has any influence. -/
structure Resumes (front : List Token) (mark : Token) (index : Nat → Nat)
    (answer : Nat → Except ReadingFault Phrase) : Prop where
  starts : index 0 = 0
  advances : ∀ i, index i ≤ index (i + 1)
  /-- The index of the end mark is never exceeded. -/
  inside : ∀ i, index i ≤ front.length
  left : ∀ behind i, leftAfter parse i (front ++ mark :: behind) =
    (front ++ mark :: behind).drop (index i)
  answers : ∀ behind times, calls parse times (front ++ mark :: behind) =
    (List.range times).map answer
  /-- Each call answers as the first call does on the tokens from the index on. -/
  fresh : ∀ behind i, answer i = (parse ((front ++ mark :: behind).drop (index i))).1
  /-- Behind a whole phrase stands the end mark, and nothing else is found there. -/
  finished : ∀ i phrase, answer i = .ok phrase → index (i + 1) = front.length ∧
    ∀ later, i < later → answer later = .error ⟨.unexpectedEnd, mark.position⟩
  /-- As many calls as there are tokens use up all chances of getting on. -/
  settles : ∃ fault, ∀ i, front.length ≤ i → answer i = .error fault

/-- No call finds anything at the end mark. -/
theorem CallsAt.of_length {next : Nat} {answer : Except ReadingFault Phrase}
    (hmark : mark.kind = .finish) (h : CallsAt front mark front.length next answer) :
    next = front.length ∧ answer = .error ⟨.unexpectedEnd, mark.position⟩ := by
  have hparsed := h.parsed []
  rw [List.drop_length, List.nil_append, parse_mark hmark] at hparsed
  exact ⟨Nat.le_antisymm h.inside h.advances, (Prod.mk.inj hparsed).1.symm⟩

theorem CallsAt.of_ok {index next : Nat} {phrase : Phrase}
    (h : CallsAt front mark index next (.ok phrase)) : next = front.length :=
  Nat.le_antisymm h.inside (List.drop_eq_nil_iff.mp (h.stops.accepted phrase rfl))

/-- After some calls the index has become as large as their number, unless one of them did not get
on. -/
theorem le_indexAfter_or_stuck (hfront : ∀ token ∈ front, token.kind ≠ .finish)
    (hmark : mark.kind = .finish) (i : Nat) :
    i ≤ indexAfter front mark i ∨
      ∃ stuck < i, indexAfter front mark (stuck + 1) = indexAfter front mark stuck := by
  induction i with
  | zero => exact .inl (Nat.zero_le _)
  | succ i ih =>
    obtain hle | ⟨stuck, hlt, hstuck⟩ := ih
    · have hadvances := (callsAt_indexAfter hfront hmark i).advances
      by_cases hsame : indexAfter front mark (i + 1) = indexAfter front mark i
      · exact .inr ⟨i, Nat.lt_succ_self i, hsame⟩
      · exact .inl (by omega)
    · exact .inr ⟨stuck, Nat.lt_succ_of_lt hlt, hstuck⟩

/-- One of the calls, as many as there are tokens, does not get on. -/
theorem exists_stuck (hfront : ∀ token ∈ front, token.kind ≠ .finish) (hmark : mark.kind = .finish) :
    ∃ stuck ≤ front.length,
      indexAfter front mark (stuck + 1) = indexAfter front mark stuck := by
  obtain hle | ⟨stuck, hlt, hstuck⟩ := le_indexAfter_or_stuck hfront hmark front.length
  · have hcall := callsAt_indexAfter hfront hmark front.length
    have hinside := (leftAfter_eq_drop hfront hmark front.length).1
    have hadvances := hcall.advances
    have hnext := hcall.inside
    exact ⟨front.length, Nat.le_refl _, by omega⟩
  · exact ⟨stuck, Nat.le_of_lt hlt, hstuck⟩

/-- A call that does not get on has a complaint, which every later call repeats. -/
theorem settles_of_stuck (hfront : ∀ token ∈ front, token.kind ≠ .finish) (hmark : mark.kind = .finish)
    {stuck : Nat} (h : indexAfter front mark (stuck + 1) = indexAfter front mark stuck) :
    ∃ fault, ∀ i, stuck ≤ i → answerAt parse i (front ++ [mark]) = .error fault := by
  have hcall := callsAt_indexAfter hfront hmark stuck
  have hfixed : (parse (leftAfter parse stuck (front ++ [mark]))).2 =
      leftAfter parse stuck (front ++ [mark]) := by
    rw [← leftAfter_succ, (leftAfter_eq_drop hfront hmark _).2, (leftAfter_eq_drop hfront hmark _).2, h]
  have hsame (i : Nat) (hi : stuck ≤ i) :
      answerAt parse i (front ++ [mark]) = answerAt parse stuck (front ++ [mark]) := by
    rw [answerAt, answerAt, leftAfter_of_fixed hfixed hi]
  cases hanswer : answerAt parse stuck (front ++ [mark]) with
  | error fault => exact ⟨fault, fun i hi => (hsame i hi).trans hanswer⟩
  | ok phrase =>
    -- A whole phrase is not read without getting on.
    rw [hanswer] at hcall
    have hend := hcall.of_ok
    rw [← h, hend] at hcall
    exact nomatch (hcall.of_length hmark).2

/-- A call that reads a whole phrase stops at the end mark, and so does every later one. -/
theorem answerAt_of_ok (hfront : ∀ token ∈ front, token.kind ≠ .finish) (hmark : mark.kind = .finish)
    {i later : Nat} {phrase : Phrase} (h : answerAt parse i (front ++ [mark]) = .ok phrase)
    (hlater : i < later) :
    answerAt parse later (front ++ [mark]) = .error ⟨.unexpectedEnd, mark.position⟩ := by
  have hcall := callsAt_indexAfter hfront hmark
  have hmonotone := monotone_nat_of_le_succ fun i => (hcall i).advances
  have hi := hcall i
  rw [h] at hi
  have hend : indexAfter front mark later = front.length :=
    Nat.le_antisymm (leftAfter_eq_drop hfront hmark later).1 (hi.of_ok ▸ hmonotone hlater)
  exact ((hend ▸ hcall later).of_length hmark).2

theorem drop_indexAfter (hfront : ∀ token ∈ front, token.kind ≠ .finish) (hmark : mark.kind = .finish)
    (behind : List Token) (i : Nat) :
    (front ++ mark :: behind).drop (indexAfter front mark i) =
      front.drop (indexAfter front mark i) ++ mark :: behind :=
  List.drop_append_of_le_length (leftAfter_eq_drop hfront hmark i).1

/-- The reader can be called any number of times on tokens with an end mark among them, and whatever
stands behind the first of the end marks is never looked at. -/
theorem parse_resumes (hfront : ∀ token ∈ front, token.kind ≠ .finish) (hmark : mark.kind = .finish) :
    Resumes front mark (indexAfter front mark) (answerAt parse · (front ++ [mark])) where
  starts := indexAfter_eq (Nat.zero_le _) rfl
  advances i := (callsAt_indexAfter hfront hmark i).advances
  inside i := (leftAfter_eq_drop hfront hmark i).1
  left behind i := by
    rw [drop_indexAfter hfront hmark, (leftAfter_eq_drop hfront hmark i).2]
  answers behind times := by
    rw [calls_eq_map_answerAt]
    refine List.map_congr_left fun i _ => ?_
    rw [answerAt, (leftAfter_eq_drop hfront hmark i).2, (callsAt_indexAfter hfront hmark i).parsed]
  fresh behind i := by
    rw [drop_indexAfter hfront hmark, (callsAt_indexAfter hfront hmark i).parsed]
  finished i phrase h := by
    have hcall := callsAt_indexAfter hfront hmark i
    rw [h] at hcall
    exact ⟨hcall.of_ok, fun _ => answerAt_of_ok hfront hmark h⟩
  settles := by
    obtain ⟨stuck, hle, hstuck⟩ := exists_stuck hfront hmark
    obtain ⟨fault, hfault⟩ := settles_of_stuck hfront hmark hstuck
    exact ⟨fault, fun i hi => hfault i (hle.trans hi)⟩

/-- The tokens of `12 3)`. -/
def wrongTwice : List Token :=
  [{ kind := .number, text := bytes "12", position := 0 },
    { kind := .number, text := bytes "3", position := 3 },
    { kind := .closeParen, text := bytes ")", position := 4 }]

/-- The first two calls get on, to the second number and to the parenthesis, where all others
stay. -/
theorem parse_resumes_wrongTwice :
    (∀ token ∈ wrongTwice, token.kind ≠ .finish) ∧ (Token.endMark 5).kind = .finish ∧
      ∀ behind, calls parse 4 (wrongTwice ++ Token.endMark 5 :: behind) =
        [.error ⟨.trailingText, 3⟩, .error ⟨.trailingText, 4⟩,
          .error ⟨.unexpectedToken (bytes ")"), 4⟩, .error ⟨.unexpectedToken (bytes ")"), 4⟩] := by
  have hfront : ∀ token ∈ wrongTwice, token.kind ≠ .finish := by decide
  refine ⟨hfront, rfl, fun behind => ?_⟩
  have h := parse_resumes hfront (rfl : (Token.endMark 5).kind = .finish)
  rw [h.answers behind, ← h.answers []]
  rfl

end DiceFormula.Reader
