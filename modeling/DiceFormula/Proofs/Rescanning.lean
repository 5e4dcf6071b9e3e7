import DiceFormula.Proofs.LongestMatch
import DiceFormula.Resume

/-!
# Scanning a text again

A text can be scanned again from the place where a scan stopped: at its end, in front of what no
token begins with, or behind the two letters of a directive without digits. Each scan answers as a
scan of the rest would, and only after such letters does the next one find anything new.
-/

namespace DiceFormula.Lexer

/-! ## 1. A text further behind -/

/-- The same answer at positions that are larger by a distance. -/
def shifted (distance : Nat) :
    Except ReadingFault (List Token) → Except ReadingFault (List Token)
  | .ok tokens =>
      .ok (tokens.map fun token => { token with position := distance + token.position })
  | .error fault => .error { fault with position := distance + fault.position }

theorem shifted_map_cons (distance : Nat) (token : Token)
    (answer : Except ReadingFault (List Token)) :
    shifted distance (answer.map (token :: ·)) =
      (shifted distance answer).map
        ({ token with position := distance + token.position } :: ·) := by
  cases answer <;> rfl

theorem step_shifted (distance position : Nat) (text : Bytes) :
    step (distance + position) text =
      match step position text with
      | .blank stop => .blank (distance + stop)
      | .token token rest => .token { token with position := distance + token.position } rest
      | .fault fault rest => .fault { fault with position := distance + fault.position } rest := by
  unfold step
  cases text.dropWhile isBlank with
  | nil => simp only [Nat.add_assoc]
  | cons b rest =>
    cases hfirst : first b rest with
    | mk answer length =>
      cases answer <;> simp only [hfirst, Nat.add_assoc]

/-- Positions do not decide about anything. -/
theorem scan_shifted (distance position : Nat) (text : Bytes) :
    scan (distance + position) text =
      (shifted distance (scan position text).1, (scan position text).2) := by
  induction position, text using scan.induct with
  | case1 position text stop hstep =>
    rw [scan_eq, step_shifted, scan_eq position, hstep]
    rfl
  | case2 position text fault rest hstep =>
    rw [scan_eq, step_shifted, scan_eq position, hstep]
    rfl
  | case3 position text token rest hstep _ _ _ _ ih =>
    rw [scan_eq, step_shifted, scan_eq position, hstep]
    dsimp only
    rw [Nat.add_assoc, ih, shifted_map_cons]

/-! ## 2. Where one scan stops -/

/-- There are blanks only, or the first other byte decides. -/
theorem step_blank_or_exists_byte (position : Nat) (text : Bytes) :
    step position text = .blank (position + text.length) ∨
      ∃ gap b others, text = gap ++ b :: others ∧ (∀ b ∈ gap, isBlank b = true) ∧
        isBlank b = false := by
  obtain ⟨gap, rest, rfl, hgap, hrest⟩ := exists_gap text
  cases rest with
  | nil =>
    rw [List.append_nil, step, List.dropWhile_eq_nil_iff.mpr hgap,
      List.takeWhile_eq_self_iff.mpr hgap]
    exact .inl rfl
  | cons b others => exact .inr ⟨gap, b, others, rfl, hgap, hrest b rfl⟩

/-- A token is cut off from the text, together with the blanks in front of it. -/
theorem append_of_step {position : Nat} {text rest : Bytes} {token : Token}
    (h : step position text = .token token rest) :
    ∃ front, text = front ++ rest ∧
      token.position + token.text.length = position + front.length := by
  obtain hblank | ⟨gap, b, others, rfl, hgap, hb⟩ := step_blank_or_exists_byte position text
  · exact Step.noConfusion (hblank.symm.trans h)
  · rw [step_append hgap hb] at h
    cases hfirst : first b others with
    | mk answer length =>
      rw [hfirst] at h
      cases answer with
      | error complaint => exact Step.noConfusion h
      | ok kind =>
        obtain ⟨rfl, rfl⟩ := Step.token.inj h
        refine ⟨gap ++ (b :: others).take length, ?_, ?_⟩
        · rw [List.append_assoc, List.take_append_drop]
        · rw [List.length_append, Nat.add_assoc]

/-- Nothing is left behind all tokens. -/
theorem unused_of_scan_ok {position : Nat} {text : Bytes} {tokens : List Token}
    (h : (scan position text).1 = .ok tokens) : (scan position text).2 = [] := by
  induction position, text using scan.induct generalizing tokens with
  | case1 position text stop hstep => rw [scan_eq, hstep]
  | case2 position text fault rest hstep =>
    rw [scan_eq, hstep] at h
    cases h
  | case3 position text token rest hstep _ _ _ _ ih =>
    rw [scan_eq, hstep] at h ⊢
    dsimp only at h ⊢
    cases hrest : (scan (token.position + token.text.length) rest).1 with
    | ok others => exact ih hrest
    | error fault =>
      rw [hrest] at h
      cases h

/-- What is complained about stands in the text, and what follows the complaint is left. -/
theorem stop_of_scan_error {position : Nat} {text : Bytes} {fault : ReadingFault}
    (h : (scan position text).1 = .error fault) :
    ∃ front b others length, text = front ++ b :: others ∧ isBlank b = false ∧
      first b others = (.error fault.complaint, length) ∧
      fault.position = position + front.length + length ∧
      (scan position text).2 = (b :: others).drop length := by
  induction position, text using scan.induct with
  | case1 position text stop hstep =>
    rw [scan_eq, hstep] at h
    cases h
  | case2 position text other rest hstep =>
    rw [scan_eq, hstep] at h ⊢
    obtain rfl := Except.error.inj h
    obtain hblank | ⟨gap, b, others, rfl, hgap, hb⟩ := step_blank_or_exists_byte position text
    · exact Step.noConfusion (hblank.symm.trans hstep)
    · rw [step_append hgap hb] at hstep
      cases hfirst : first b others with
      | mk answer length =>
        rw [hfirst] at hstep
        cases answer with
        | ok kind => exact Step.noConfusion hstep
        | error complaint =>
          obtain ⟨rfl, rfl⟩ := Step.fault.inj hstep
          exact ⟨gap, b, others, length, rfl, hb, hfirst, rfl, rfl⟩
  | case3 position text token rest hstep _ _ _ _ ih =>
    rw [scan_eq, hstep] at h ⊢
    dsimp only at h ⊢
    cases hrest : (scan (token.position + token.text.length) rest).1 with
    | ok others =>
      rw [hrest] at h
      cases h
    | error other =>
      rw [hrest] at h
      obtain rfl := Except.error.inj h
      obtain ⟨front, rfl, hfront⟩ := append_of_step hstep
      obtain ⟨between, b, others, length, rfl, hb, hfirst, hposition, hleft⟩ := ih hrest
      refine ⟨front ++ between, b, others, length, (List.append_assoc _ _ _).symm, hb, hfirst, ?_,
        hleft⟩
      rw [hposition, hfront, List.length_append, Nat.add_assoc position]

theorem scan_of_first_error {b : UInt8} {others : Bytes} {complaint : Complaint} {length : Nat}
    (hb : isBlank b = false) (h : first b others = (.error complaint, length)) (position : Nat) :
    scan position (b :: others) =
      (.error ⟨complaint, position + length⟩, (b :: others).drop length) := by
  have hstep : step position ([] ++ b :: others) =
      .fault ⟨complaint, position + length⟩ ((b :: others).drop length) := by
    rw [step_append (List.forall_mem_nil _) hb, h]
    rfl
  rw [List.nil_append] at hstep
  rw [scan_eq, hstep]

/-! ## 3. One call -/

/-- The two letters of a directive end at a position, and no digits follow them. -/
def LacksAmount (text : Bytes) (position : Nat) : Prop :=
  ∃ front first second rest, text = front ++ first :: second :: rest ∧
    isDirectiveStart first second = true ∧ digitCount rest = 0 ∧ position = front.length + 2

/-- Where one call begins and where it stops, by the positions in the text. -/
structure CallAt (text : Bytes) (start stop : Nat) (answer : Except ReadingFault (List Token)) :
    Prop where
  advances : start ≤ stop
  inside : stop ≤ text.length
  scanned : Cursor.scan ⟨start, text.drop start⟩ = (answer, ⟨stop, text.drop stop⟩)
  accepted : ∀ tokens, answer = .ok tokens → stop = text.length
  refused : ∀ fault, answer = .error fault → fault.position = stop
  /-- A complaint that has used up nothing is made again. -/
  stuck : ∀ fault, answer = .error fault → fault.complaint ≠ .missingAmount →
    Cursor.scan ⟨stop, text.drop stop⟩ = (answer, ⟨stop, text.drop stop⟩)
  skipped : ∀ fault, answer = .error fault → fault.complaint = .missingAmount →
    start + 2 ≤ stop ∧ LacksAmount text stop

theorem scan_cursor_of_unused {text : Bytes} {start stop : Nat} (hstart : start ≤ stop)
    (hstop : stop ≤ text.length) (h : (scan start (text.drop start)).2 = text.drop stop) :
    Cursor.scan ⟨start, text.drop start⟩ =
      ((scan start (text.drop start)).1, ⟨stop, text.drop stop⟩) := by
  have hposition : start + (text.length - start - (text.length - stop)) = stop := by omega
  simp only [Cursor.scan, h, List.length_drop, hposition]

theorem callAt_of_ok {text : Bytes} {start : Nat} {tokens : List Token} (hstart : start ≤ text.length)
    (h : (scan start (text.drop start)).1 = .ok tokens) :
    CallAt text start text.length (.ok tokens) where
  advances := hstart
  inside := Nat.le_refl _
  scanned := by
    have hunused := unused_of_scan_ok h
    rw [← List.drop_length (l := text)] at hunused
    have hscan := scan_cursor_of_unused hstart (Nat.le_refl _) hunused
    rw [h] at hscan
    exact hscan
  accepted _ _ := rfl
  refused _ hanswer := nomatch hanswer
  stuck _ hanswer := nomatch hanswer
  skipped _ hanswer := nomatch hanswer

theorem callAt_of_error {text : Bytes} {start : Nat} {fault : ReadingFault}
    (hstart : start ≤ text.length) (h : (scan start (text.drop start)).1 = .error fault) :
    CallAt text start fault.position (.error fault) := by
  obtain ⟨front, b, others, length, htext, hb, hfirst, hposition, hunused⟩ := stop_of_scan_error h
  -- What is complained about stands behind the tokens that have been found before.
  have hdrop : text.drop (start + front.length) = b :: others := by
    rw [← List.drop_drop, htext, List.drop_left]
  have hstop : text.drop fault.position = (b :: others).drop length := by
    rw [hposition, ← List.drop_drop, hdrop]
  have hinside : fault.position ≤ text.length := by
    have hlength := congrArg List.length htext
    have hle := first_length_le hfirst
    rw [List.length_drop, List.length_append] at hlength
    omega
  refine ⟨by omega, hinside, ?_, fun _ hanswer => (nomatch hanswer), fun _ hanswer => ?_,
    fun _ hanswer hother => ?_, fun _ hanswer hmissing => ?_⟩
  · rw [← hstop] at hunused
    have hscan := scan_cursor_of_unused (by omega) hinside hunused
    rw [h] at hscan
    exact hscan
  all_goals obtain rfl := Except.error.inj hanswer
  · rfl
  · obtain ⟨hmissing, -⟩ | ⟨-, rfl, -⟩ := cases_of_first_error hfirst
    · exact absurd hmissing hother
    · have hagain := scan_of_first_error hb hfirst fault.position
      rw [← hstop, ← List.drop_zero (l := b :: others), ← hstop] at hagain
      have hscan := scan_cursor_of_unused (Nat.le_refl _) hinside (congrArg Prod.snd hagain)
      rw [hagain] at hscan
      exact hscan
  · obtain ⟨-, rfl, second, rest, rfl, hdirective, hcount⟩ | ⟨hother, -⟩ :=
      cases_of_first_error hfirst
    · refine ⟨by omega, text.take (start + front.length), b, second, rest, ?_, hdirective, hcount, ?_⟩
      · rw [← hdrop, List.take_append_drop]
      · rw [List.length_take, hposition]
        omega
    · exact absurd hmissing hother

theorem exists_callAt {text : Bytes} {start : Nat} (hstart : start ≤ text.length) :
    ∃ stop answer, CallAt text start stop answer := by
  cases hanswer : (scan start (text.drop start)).1 with
  | ok tokens => exact ⟨_, _, callAt_of_ok hstart hanswer⟩
  | error fault => exact ⟨_, _, callAt_of_error hstart hanswer⟩

/-! ## 4. Many calls -/

/-- The position before one of the calls, which are counted from zero. -/
def positionAfter (text : Bytes) (i : Nat) : Nat :=
  (leftAfter Cursor.scan i ⟨0, text⟩).position

theorem leftAfter_eq_positionAfter (text : Bytes) (i : Nat) :
    positionAfter text i ≤ text.length ∧
      leftAfter Cursor.scan i ⟨0, text⟩ =
        ⟨positionAfter text i, text.drop (positionAfter text i)⟩ := by
  induction i with
  | zero => exact ⟨Nat.zero_le _, rfl⟩
  | succ i ih =>
    obtain ⟨hinside, hleft⟩ := ih
    obtain ⟨stop, answer, hcall⟩ := exists_callAt hinside
    have hnext : leftAfter Cursor.scan (i + 1) ⟨0, text⟩ = ⟨stop, text.drop stop⟩ := by
      rw [leftAfter_succ, hleft, hcall.scanned]
    rw [positionAfter, hnext]
    exact ⟨hcall.inside, rfl⟩

theorem callAt_positionAfter (text : Bytes) (i : Nat) :
    CallAt text (positionAfter text i) (positionAfter text (i + 1))
      (answerAt Cursor.scan i ⟨0, text⟩) := by
  obtain ⟨hinside, hleft⟩ := leftAfter_eq_positionAfter text i
  obtain ⟨stop, answer, hcall⟩ := exists_callAt hinside
  have hnext : positionAfter text (i + 1) = stop := by
    rw [positionAfter, leftAfter_succ, hleft, hcall.scanned]
  have hanswer : answerAt Cursor.scan i ⟨0, text⟩ = answer := by
    rw [answerAt, hleft, hcall.scanned]
  rw [hnext, hanswer]
  exact hcall

/-- Each call answers as a text of its own, the rest of the text, is answered. -/
theorem answerAt_eq_shifted (text : Bytes) (i : Nat) :
    answerAt Cursor.scan i ⟨0, text⟩ =
      shifted (positionAfter text i) (tokensOf (text.drop (positionAfter text i))) := by
  have hscan := scan_shifted (positionAfter text i) 0 (text.drop (positionAfter text i))
  rw [answerAt, (leftAfter_eq_positionAfter text i).2]
  exact congrArg Prod.fst hscan

theorem positionAfter_succ_of_error {text : Bytes} {i : Nat} {fault : ReadingFault}
    (h : answerAt Cursor.scan i ⟨0, text⟩ = .error fault) :
    positionAfter text (i + 1) = fault.position :=
  ((callAt_positionAfter text i).refused fault h).symm

/-- Of two calls that complain about a directive without digits, the later one stops two bytes
further on at least. -/
theorem eq_of_missingAmount {text : Bytes} {i other place : Nat}
    (h : answerAt Cursor.scan i ⟨0, text⟩ = .error ⟨.missingAmount, place⟩)
    (hother : answerAt Cursor.scan other ⟨0, text⟩ = answerAt Cursor.scan i ⟨0, text⟩) :
    other = i := by
  have hmonotone : Monotone (positionAfter text) :=
    monotone_nat_of_le_succ fun i => (callAt_positionAfter text i).advances
  rw [h] at hother
  have hstop := positionAfter_succ_of_error h
  have hstop' := positionAfter_succ_of_error hother
  have hskipped := ((callAt_positionAfter text i).skipped _ h rfl).1
  have hskipped' := ((callAt_positionAfter text other).skipped _ hother rfl).1
  dsimp only at hstop hstop'
  obtain hlt | rfl | hgt := Nat.lt_trichotomy other i
  · have := hmonotone (show other + 1 ≤ i from hlt)
    omega
  · rfl
  · have := hmonotone (show i + 1 ≤ other from hgt)
    omega

/-- A call that would stop where it begins is repeated for ever. -/
theorem answerAt_of_fixed {text : Bytes} {i later : Nat} {answer : Except ReadingFault (List Token)}
    (h : Cursor.scan ⟨positionAfter text i, text.drop (positionAfter text i)⟩ =
      (answer, ⟨positionAfter text i, text.drop (positionAfter text i)⟩)) (hlater : i ≤ later) :
    answerAt Cursor.scan later ⟨0, text⟩ = answer := by
  have hleft := (leftAfter_eq_positionAfter text i).2
  have hfixed : (Cursor.scan (leftAfter Cursor.scan i ⟨0, text⟩)).2 =
      leftAfter Cursor.scan i ⟨0, text⟩ := by
    rw [hleft, h]
  rw [answerAt, leftAfter_of_fixed hfixed hlater, hleft, h]

/-- Nothing but the end mark is found behind all tokens. -/
theorem answerAt_of_ok {text : Bytes} {i later : Nat} {tokens : List Token}
    (h : answerAt Cursor.scan i ⟨0, text⟩ = .ok tokens) (hlater : i < later) :
    answerAt Cursor.scan later ⟨0, text⟩ = .ok [.endMark text.length] := by
  have hend := (callAt_positionAfter text i).accepted tokens h
  refine answerAt_of_fixed (i := i + 1) ?_ hlater
  rw [hend, List.drop_length, Cursor.scan, scan_eq]
  rfl

theorem answerAt_of_stuck {text : Bytes} {i later : Nat} {fault : ReadingFault}
    (h : answerAt Cursor.scan i ⟨0, text⟩ = .error fault) (hfault : fault.complaint ≠ .missingAmount)
    (hlater : i ≤ later) : answerAt Cursor.scan later ⟨0, text⟩ = .error fault := by
  have hstuck := (callAt_positionAfter text i).stuck fault h hfault
  obtain rfl | hlt := Nat.eq_or_lt_of_le hlater
  · exact h
  · exact (answerAt_of_fixed hstuck hlt).trans h

/-- As long as every call has complained about a directive without digits, each one has used up two
letters more. -/
theorem two_mul_le_positionAfter_or_settled (text : Bytes) (i : Nat) :
    2 * i ≤ positionAfter text i ∨
      ∃ settled < i, ∀ later, settled < later → answerAt Cursor.scan later ⟨0, text⟩ =
        answerAt Cursor.scan (settled + 1) ⟨0, text⟩ := by
  induction i with
  | zero => exact .inl (Nat.zero_le _)
  | succ i ih =>
    obtain hle | ⟨settled, hlt, hsettled⟩ := ih
    · cases hanswer : answerAt Cursor.scan i ⟨0, text⟩ with
      | ok tokens =>
        refine .inr ⟨i, Nat.lt_succ_self i, fun later hlater => ?_⟩
        rw [answerAt_of_ok hanswer hlater, answerAt_of_ok hanswer (Nat.lt_succ_self i)]
      | error fault =>
        by_cases hfault : fault.complaint = .missingAmount
        · have hskipped := ((callAt_positionAfter text i).skipped fault hanswer hfault).1
          exact .inl (by omega)
        · refine .inr ⟨i, Nat.lt_succ_self i, fun later hlater => ?_⟩
          rw [answerAt_of_stuck hanswer hfault hlater.le,
            answerAt_of_stuck hanswer hfault (Nat.le_succ i)]
    · exact .inr ⟨settled, Nat.lt_succ_of_lt hlt, hsettled⟩

theorem answerAt_settles (text : Bytes) {i : Nat} (hi : text.length / 2 + 1 ≤ i) :
    answerAt Cursor.scan i ⟨0, text⟩ =
      answerAt Cursor.scan (text.length / 2 + 1) ⟨0, text⟩ := by
  obtain hle | ⟨settled, hlt, hsettled⟩ :=
    two_mul_le_positionAfter_or_settled text (text.length / 2 + 1)
  · have hinside := (leftAfter_eq_positionAfter text (text.length / 2 + 1)).1
    omega
  · rw [hsettled i (by omega), hsettled _ hlt]

/-! ## 5. All calls -/

/-- Scanning a text again and again: the position before each call, and the answer of each call,
both counted from zero. -/
structure Rescans (text : Bytes) (position : Nat → Nat)
    (answer : Nat → Except ReadingFault (List Token)) : Prop where
  starts : position 0 = 0
  advances : ∀ i, position i ≤ position (i + 1)
  inside : ∀ i, position i ≤ text.length
  places : ∀ i, leftAfter Cursor.scan i ⟨0, text⟩ = ⟨position i, text.drop (position i)⟩
  answers : ∀ times, calls Cursor.scan times ⟨0, text⟩ = (List.range times).map answer
  /-- Each call answers as the rest of the text alone is answered, but for the positions. -/
  fresh : ∀ i, answer i = shifted (position i) (tokensOf (text.drop (position i)))
  /-- The position in the words of a complaint is that in the whole text, too. -/
  worded : ∀ i own, tokensOf (text.drop (position i)) = .error own →
    ∃ fault, answer i = .error fault ∧ fault.message = own.complaint.message ++
      bytes " (позиция " ++ Decimal.ofNat (position i + own.position) ++ bytes ")"
  /-- A complaint is about the place where scanning stops. -/
  refused : ∀ i fault, answer i = .error fault → position (i + 1) = fault.position
  finished : ∀ i tokens, answer i = .ok tokens →
    ∀ later, i < later → answer later = .ok [.endMark text.length]
  repeated : ∀ i fault, answer i = .error fault → fault.complaint ≠ .missingAmount →
    ∀ later, i ≤ later → answer later = .error fault
  /-- The complaint about a directive without digits is made once, and scanning goes on behind the two
  letters of the directive. -/
  skipped : ∀ i place, answer i = .error ⟨.missingAmount, place⟩ →
    LacksAmount text (position (i + 1)) ∧ ∀ other, answer other = answer i → other = i
  settles : ∀ i, text.length / 2 + 1 ≤ i → answer i = answer (text.length / 2 + 1)

/-- A text can be scanned any number of times, each time from where the time before has stopped. -/
theorem scan_resumes (text : Bytes) :
    Rescans text (positionAfter text) (answerAt Cursor.scan · ⟨0, text⟩) where
  starts := rfl
  advances i := (callAt_positionAfter text i).advances
  inside i := (leftAfter_eq_positionAfter text i).1
  places i := (leftAfter_eq_positionAfter text i).2
  answers times := calls_eq_map_answerAt Cursor.scan times ⟨0, text⟩
  fresh := answerAt_eq_shifted text
  worded i own hown := by
    have hanswer := answerAt_eq_shifted text i
    rw [hown] at hanswer
    exact ⟨_, hanswer, rfl⟩
  refused _ _ := positionAfter_succ_of_error
  finished _ _ h _ := answerAt_of_ok h
  repeated _ _ h hfault _ := answerAt_of_stuck h hfault
  skipped i place h :=
    ⟨((callAt_positionAfter text i).skipped _ h rfl).2, fun _ => eq_of_missingAmount h⟩
  settles _ := answerAt_settles text

/-- No fewer calls settle the answer. -/
example : calls Cursor.scan 5 ⟨0, bytes "khkh+"⟩ =
    [.error ⟨.missingAmount, 2⟩, .error ⟨.missingAmount, 4⟩,
      .ok [⟨.plus, bytes "+", 4, false⟩, .endMark 5], .ok [.endMark 5], .ok [.endMark 5]] := by
  cbv

end DiceFormula.Lexer
