import DiceFormula.Proofs.Evaluation
import DiceFormula.Proofs.Traces
import DiceFormula.Proofs.Unambiguous

/-!
# Reports are faithful

A report gives away the expression and every thrown die. Its first line shows the text of the
expression; with the expression known, the report is read line by line, and every line with dice in
it is the trace of a number.
-/

namespace DiceFormula

/-! ## 1. Lines -/

-- The first newline ends the line on both sides; the rests may contain more of them.
theorem append_cons_inj {text text' rest rest' : Bytes} {b : UInt8} (hb : b ∉ text) (hb' : b ∉ text')
    (h : text ++ b :: rest = text' ++ b :: rest') : text = text' ∧ rest = rest' := by
  induction text generalizing text' with
  | nil =>
    cases text' with
    | nil => exact ⟨rfl, (List.cons.inj h).2⟩
    | cons c text' => exact absurd (List.mem_cons.mpr (.inl (List.cons.inj h).1)) hb'
  | cons c text ih =>
    cases text' with
    | nil => exact absurd (List.mem_cons.mpr (.inl (List.cons.inj h).1.symm)) hb
    | cons c' text' =>
      obtain ⟨rfl, htail⟩ := List.cons.inj h
      obtain ⟨rfl, hrest⟩ := ih (fun hmem => hb (List.mem_cons_of_mem c hmem))
        (fun hmem => hb' (List.mem_cons_of_mem c hmem)) htail
      exact ⟨rfl, hrest⟩

theorem newline_notMem_of_subset {text : Bytes} (h : text ⊆ traceBytes) : ascii '\n' ∉ text :=
  fun hb => absurd (h hb) (by decide)

namespace Outcome

/-- A line ends where it says. -/
theorem line_append_inj {depth : Nat} {text text' rest rest' : Bytes} (hline : ascii '\n' ∉ text)
    (hline' : ascii '\n' ∉ text') (h : line depth text ++ rest = line depth text' ++ rest') :
    text = text' ∧ rest = rest' := by
  unfold line at h
  simp only [List.append_assoc] at h
  exact append_cons_inj hline hline' (List.append_cancel_left h)

/-! ## 2. Reports of one expression -/

variable {e : Expr} {outcome outcome' : Outcome}

theorem reportAt_of_trace (h : Follows outcome e) (hnumber : e.yieldsList = false) {text : Bytes}
    (htrace : outcome.trace = .ok text) (depth : Nat) :
    reportAt depth outcome = .ok (line depth text) := by
  cases h with
  | constant | dice | selected | binary =>
    rw [reportAt, htrace]
    · rfl
    · exact fun _ _ h => nomatch h
    · exact fun _ h => nomatch h
  | repeated => exact nomatch hnumber
  | sequence => exact nomatch hnumber

-- Only a list has no trace, and lists are reported without one.
theorem exists_reportParts {items : List Expr} {children : List Outcome}
    (h : AllFollow children items)
    (hitems : ∀ item ∈ items, ∀ {outcome : Outcome}, Follows outcome item →
      ∀ depth, ∃ text, reportAt depth outcome = .ok text)
    (depth index : Nat) : ∃ text, reportParts depth index children = .ok text := by
  induction items generalizing children index with
  | nil =>
    cases h
    exact ⟨[], rfl⟩
  | cons item items ih =>
    cases h with
    | cons hchild hchildren =>
      obtain ⟨hitem, hitems⟩ := List.forall_mem_cons.mp hitems
      obtain ⟨block, hblock⟩ := hitem hchild (depth + 2)
      obtain ⟨others, hothers⟩ := ih hchildren hitems (index + 1)
      rw [reportParts, hblock, hothers]
      exact ⟨_, rfl⟩

/-- There is a report of every outcome that follows an expression. -/
theorem exists_reportAt (h : Follows outcome e) (depth : Nat) :
    ∃ text, reportAt depth outcome = .ok text := by
  induction e generalizing outcome depth with
  | constant | dice | selected | binary =>
    obtain ⟨tail, -, -, htrace⟩ := trace_of_follows h rfl
    exact ⟨_, reportAt_of_trace h rfl htrace depth⟩
  | repeated count body ih =>
    cases h with
    | repeated hall =>
      have hcopies : ∀ item ∈ List.replicate count.toNat body, ∀ {outcome : Outcome},
          Follows outcome item → ∀ depth, ∃ text, reportAt depth outcome = .ok text :=
        List.forall_mem_replicate.mpr (.inr ih)
      obtain ⟨blocks, hblocks⟩ := exists_reportParts hall hcopies depth 0
      rw [reportAt, hblocks]
      exact ⟨_, rfl⟩
  | sequence items ih =>
    cases h with
    | sequence hall =>
      obtain ⟨blocks, hblocks⟩ := exists_reportParts hall ih depth 0
      rw [reportAt, hblocks]
      exact ⟨_, rfl⟩

/-- Whatever stands behind two reports of an expression, they begin alike only if the same faces
were thrown. -/
def Tells (e : Expr) : Prop :=
  ∀ (outcome outcome' : Outcome) (depth : Nat) (report report' rest rest' : Bytes),
    Follows outcome e → Follows outcome' e → reportAt depth outcome = .ok report →
      reportAt depth outcome' = .ok report' → report ++ rest = report' ++ rest' →
        outcome.faces = outcome'.faces ∧ rest = rest'

theorem tells_number (he : e.WellFormed) (hnumber : e.yieldsList = false) : Tells e := by
  intro outcome outcome' depth report report' rest rest' h h' hreport hreport' heq
  obtain ⟨tail, -, hbytes, htrace⟩ := trace_of_follows h hnumber
  obtain ⟨tail', -, hbytes', htrace'⟩ := trace_of_follows h' hnumber
  rw [reportAt_of_trace h hnumber htrace] at hreport
  rw [reportAt_of_trace h' hnumber htrace'] at hreport'
  obtain rfl := Except.ok.inj hreport
  obtain rfl := Except.ok.inj hreport'
  obtain ⟨hline, hrest⟩ := line_append_inj (newline_notMem_of_subset hbytes)
    (newline_notMem_of_subset hbytes') heq
  refine ⟨faces_eq_of_trace_eq he hnumber h h' ?_, hrest⟩
  rw [htrace, htrace', hline]

theorem reportParts_append_inj {items : List Expr} (hitems : ∀ item ∈ items, Tells item)
    {children children' : List Outcome} {depth index : Nat} {blocks blocks' rest rest' : Bytes}
    (h : AllFollow children items) (h' : AllFollow children' items)
    (hblocks : reportParts depth index children = .ok blocks)
    (hblocks' : reportParts depth index children' = .ok blocks')
    (heq : blocks ++ rest = blocks' ++ rest') :
    facesOfAll children = facesOfAll children' ∧ rest = rest' := by
  induction items generalizing children children' index blocks blocks' with
  | nil =>
    cases h
    cases h'
    obtain rfl := Except.ok.inj hblocks
    obtain rfl := Except.ok.inj hblocks'
    exact ⟨rfl, heq⟩
  | cons item items ih =>
    cases h with
    | cons hchild hchildren =>
      cases h' with
      | cons hchild' hchildren' =>
        obtain ⟨hitem, hitems⟩ := List.forall_mem_cons.mp hitems
        rw [reportParts] at hblocks hblocks'
        obtain ⟨block, hblock, hblocks⟩ := bind_eq_ok_iff.mp hblocks
        obtain ⟨others, hothers, hblocks⟩ := bind_eq_ok_iff.mp hblocks
        obtain ⟨block', hblock', hblocks'⟩ := bind_eq_ok_iff.mp hblocks'
        obtain ⟨others', hothers', hblocks'⟩ := bind_eq_ok_iff.mp hblocks'
        obtain rfl := Except.ok.inj hblocks
        obtain rfl := Except.ok.inj hblocks'
        -- The number of the part is the same in both.
        simp only [List.append_assoc] at heq
        obtain ⟨hfaces, hrest⟩ :=
          hitem _ _ _ _ _ _ _ hchild hchild' hblock hblock' (List.append_cancel_left heq)
        obtain ⟨hfaces', hend⟩ := ih hitems hchildren hchildren' hothers hothers' hrest
        rw [facesOfAll, facesOfAll, hfaces, hfaces']
        exact ⟨rfl, hend⟩

theorem newline_notMem_results (value : Value) :
    ascii '\n' ∉ bytes "Results: " ++ value.format := by
  rw [List.mem_append, not_or]
  exact ⟨by decide, newline_notMem_of_subset value.format_subset⟩

-- The values of the parts are in a line of their own, and the parts behind it.
theorem results_append_inj {items : List Expr} (hitems : ∀ item ∈ items, Tells item)
    {children children' : List Outcome} {value value' : Value} {depth : Nat}
    {blocks blocks' rest rest' : Bytes} (h : AllFollow children items)
    (h' : AllFollow children' items) (hblocks : reportParts depth 0 children = .ok blocks)
    (hblocks' : reportParts depth 0 children' = .ok blocks')
    (heq : line (depth + 1) (bytes "Results: " ++ value.format) ++ (blocks ++ rest) =
      line (depth + 1) (bytes "Results: " ++ value'.format) ++ (blocks' ++ rest')) :
    facesOfAll children = facesOfAll children' ∧ rest = rest' := by
  obtain ⟨-, hparts⟩ :=
    line_append_inj (newline_notMem_results value) (newline_notMem_results value') heq
  exact reportParts_append_inj hitems h h' hblocks hblocks' hparts

theorem tells_repeated {count : Int} {body : Expr} (hbody : Tells body) :
    Tells (.repeated count body) := by
  intro outcome outcome' depth report report' rest rest' h h' hreport hreport' heq
  have hcopies : ∀ item ∈ List.replicate count.toNat body, Tells item :=
    List.forall_mem_replicate.mpr (.inr hbody)
  cases h with
  | repeated hall =>
    cases h' with
    | repeated hall' =>
      rw [reportAt] at hreport hreport'
      obtain ⟨blocks, hblocks, hreport⟩ := bind_eq_ok_iff.mp hreport
      obtain ⟨blocks', hblocks', hreport'⟩ := bind_eq_ok_iff.mp hreport'
      obtain rfl := Except.ok.inj hreport
      obtain rfl := Except.ok.inj hreport'
      simp only [List.append_assoc] at heq
      -- The three lines in front are those of the expression.
      have htitle := List.append_cancel_left heq
      have hcount := List.append_cancel_left htitle
      have hresults := List.append_cancel_left hcount
      exact results_append_inj hcopies hall hall' hblocks hblocks' hresults

theorem tells_sequence {items : List Expr} (hitems : ∀ item ∈ items, Tells item) :
    Tells (.sequence items) := by
  intro outcome outcome' depth report report' rest rest' h h' hreport hreport' heq
  cases h with
  | sequence hall =>
    cases h' with
    | sequence hall' =>
      rw [reportAt] at hreport hreport'
      obtain ⟨blocks, hblocks, hreport⟩ := bind_eq_ok_iff.mp hreport
      obtain ⟨blocks', hblocks', hreport'⟩ := bind_eq_ok_iff.mp hreport'
      obtain rfl := Except.ok.inj hreport
      obtain rfl := Except.ok.inj hreport'
      simp only [List.append_assoc] at heq
      exact results_append_inj hitems hall hall' hblocks hblocks' (List.append_cancel_left heq)

theorem tells (he : e.WellFormed) : Tells e := by
  induction e with
  | constant value => exact tells_number he rfl
  | dice pool => exact tells_number he rfl
  | selected selector amount pool => exact tells_number he rfl
  | binary op left right => exact tells_number he rfl
  | repeated count body ih => exact tells_repeated (ih he.1)
  | sequence items ih =>
    have hitems := Expr.areItems_iff.mp he.1
    exact tells_sequence fun item hitem => ih item hitem (hitems item hitem).1

/-! ## 3. The first line -/

/-- What a report says in front of the text of its expression. -/
def heading : Expr → Bytes
  | .repeated _ _ => bytes "List Expansion: "
  | .sequence _ => bytes "Sequence: "
  | _ => []

theorem exists_title (h : Follows outcome e) {text : Bytes} (hreport : outcome.report = .ok text) :
    ∃ tail, Continues tail ∧ e.text ++ tail ⊆ traceBytes ∧
      line 0 (heading e ++ (e.text ++ tail)) <+: text := by
  have htext : e.text ++ [] ⊆ traceBytes := by
    rw [List.append_nil]
    exact List.Subset.trans e.text_subset textBytes_subset
  rw [report] at hreport
  cases e with
  | constant | dice | selected | binary =>
    obtain ⟨tail, htail, hbytes, htrace⟩ := trace_of_follows h rfl
    rw [reportAt_of_trace h rfl htrace] at hreport
    obtain rfl := Except.ok.inj hreport
    exact ⟨tail, htail, hbytes, List.prefix_rfl⟩
  | repeated count body =>
    cases h with
    | repeated hall =>
      rw [reportAt] at hreport
      obtain ⟨blocks, -, hreport⟩ := bind_eq_ok_iff.mp hreport
      obtain rfl := Except.ok.inj hreport
      refine ⟨[], .inl rfl, htext, ?_⟩
      simp only [List.append_nil, List.append_assoc]
      exact List.prefix_append _ _
  | sequence items =>
    cases h with
    | sequence hall =>
      rw [reportAt] at hreport
      obtain ⟨blocks, -, hreport⟩ := bind_eq_ok_iff.mp hreport
      obtain rfl := Except.ok.inj hreport
      refine ⟨[], .inl rfl, htext, ?_⟩
      simp only [List.append_nil, List.append_assoc]
      exact List.prefix_append _ _

theorem heading_cases (e : Expr) :
    heading e = [] ∨ heading e = bytes "List Expansion: " ∨ heading e = bytes "Sequence: " := by
  cases e with
  | repeated => exact .inr (.inl rfl)
  | sequence => exact .inr (.inr rfl)
  | _ => exact .inl rfl

-- No trace has a capital letter in it, so that headings are told apart.
theorem heading_append_inj {e e' : Expr} {text text' : Bytes} (htext : text ⊆ traceBytes)
    (htext' : text' ⊆ traceBytes) (h : heading e ++ text = heading e' ++ text') : text = text' := by
  have hcapital : ∀ {text rest : Bytes} {b : UInt8}, text ⊆ traceBytes → b ∉ traceBytes →
      text ≠ b :: rest := by
    intro text rest b hbytes hb heq
    exact hb (hbytes (heq ▸ List.mem_cons_self))
  rcases heading_cases e with he | he | he <;> rcases heading_cases e' with he' | he' | he' <;>
    rw [he, he'] at h
  · exact h
  · exact absurd h (hcapital htext (by decide))
  · exact absurd h (hcapital htext (by decide))
  · exact absurd h.symm (hcapital htext' (by decide))
  · exact List.append_cancel_left h
  · exact absurd (List.cons.inj h).1 (by decide)
  · exact absurd h.symm (hcapital htext' (by decide))
  · exact absurd (List.cons.inj h).1 (by decide)
  · exact List.append_cancel_left h

theorem newline_notMem_title {text : Bytes} (h : text ⊆ traceBytes) (e : Expr) :
    ascii '\n' ∉ heading e ++ text := by
  have hheading : ascii '\n' ∉ heading e := by
    rcases heading_cases e with he | he | he <;> rw [he] <;> decide
  rw [List.mem_append, not_or]
  exact ⟨hheading, newline_notMem_of_subset h⟩

theorem text_eq_of_report_eq {e' : Expr} (h : Follows outcome e) (h' : Follows outcome' e')
    (hreport : outcome.report = outcome'.report) : e.text = e'.text := by
  obtain ⟨report, hok⟩ := exists_reportAt h 0
  obtain ⟨tail, htail, hbytes, rest, heq⟩ := exists_title h hok
  obtain ⟨tail', htail', hbytes', rest', heq'⟩ := exists_title h' (hreport.symm.trans hok)
  rw [← heq'] at heq
  obtain ⟨htitle, -⟩ :=
    line_append_inj (newline_notMem_title hbytes e) (newline_notMem_title hbytes' e') heq
  exact text_eq_of_append_eq e.text_subset e'.text_subset htail htail'
    (heading_append_inj hbytes hbytes' htitle)

end Outcome

/-! ## 4. Recorded draws -/

variable {σ τ ε : Type}

/-- The same source, which also keeps all its answers, the latest last. -/
def Source.recorded (source : Source σ ε) : Source (σ × List Int) ε where
  draw lower upper := fun (state, drawn) =>
    match source.draw lower upper state with
    | (.ok value, state) => (.ok value, state, drawn ++ [value])
    | (.error fault, state) => (.error fault, state, drawn)

-- Keeping the answers changes none of them.
theorem evaluate_recorded (source : Source σ ε) (e : Expr) (state : σ) (drawn : List Int) :
    ((evaluate source.recorded e).runFrom (state, drawn)).1 =
      ((evaluate source e).runFrom state).1 := by
  have hdraw : ∀ lower upper, Rolling.Agrees (fun (state : σ × List Int) state' => state.1 = state')
      (Rolling.draw source.recorded lower upper) (Rolling.draw source lower upper) := by
    rintro lower upper ⟨state, drawn⟩ _ rfl
    rw [Rolling.runFrom_draw, Rolling.runFrom_draw]
    dsimp only [Source.recorded]
    cases source.draw lower upper state with
    | mk answer later => cases answer <;> exact ⟨rfl, rfl⟩
  exact (agrees_evaluate hdraw e (state, drawn) state rfl).1

theorem drawn_of_answers {source : Source σ ε} {plan : List Range} {state later : σ}
    {drawn drawn' faces : List Int}
    (h : source.recorded.answers plan (state, drawn) = (.ok faces, later, drawn')) :
    drawn' = drawn ++ faces := by
  induction plan generalizing state drawn faces with
  | nil =>
    cases h
    exact (List.append_nil _).symm
  | cons range plan ih =>
    obtain ⟨face, others, ⟨middle, drawn₁⟩, rfl, hdraw, hothers⟩ :=
      Source.answers_cons_eq_ok_iff.mp h
    have hlog : drawn₁ = drawn ++ [face] := by
      dsimp only [Source.recorded] at hdraw
      split at hdraw
      next =>
        cases hdraw
        rfl
      next => exact nomatch congrArg Prod.fst hdraw
    rw [ih hothers, hlog, List.append_assoc, List.singleton_append]

/-- No two expressions have one text, and two reports are equal only if they are reports of the same
expression and of the same draws. -/
theorem report_faithful :
    (∀ e e' : Expr, e.IsBuilt → e'.IsBuilt → e.text = e'.text → e = e') ∧
      ∀ (source : Source σ ε) (source' : Source τ ε) (e e' : Expr) (state later : σ) (state' later' : τ)
        (drawn drawn' : List Int) (outcome outcome' : Outcome), e.IsBuilt → e'.IsBuilt →
        (evaluate source.recorded e).runFrom (state, []) = (.ok outcome, later, drawn) →
        (evaluate source'.recorded e').runFrom (state', []) = (.ok outcome', later', drawn') →
        outcome.report = outcome'.report → e = e' ∧ drawn = drawn' := by
  have htext : ∀ e e' : Expr, e.IsBuilt → e'.IsBuilt → e.text = e'.text → e = e' :=
    fun e e' he he' =>
      Expr.text_injective (Expr.wellFormed_of_isBuilt he) (Expr.wellFormed_of_isBuilt he')
  refine ⟨htext, ?_⟩
  intro source source' e e' state later state' later' drawn drawn' outcome outcome' he he' hrun hrun'
    hreport
  have hfit := Expr.wellFormed_of_isBuilt he
  obtain ⟨hanswers, hfollows⟩ := isDrawn_of_evaluate hfit hrun
  obtain ⟨hanswers', hfollows'⟩ := isDrawn_of_evaluate (Expr.wellFormed_of_isBuilt he') hrun'
  -- The title gives the expression away, and then the lines give the faces away.
  obtain rfl := htext e e' he he' (Outcome.text_eq_of_report_eq hfollows hfollows' hreport)
  obtain ⟨report, hok⟩ := Outcome.exists_reportAt hfollows 0
  obtain ⟨hfaces, -⟩ := Outcome.tells hfit _ _ _ _ _ [] [] hfollows hfollows' hok
    (hreport.symm.trans hok) rfl
  rw [drawn_of_answers hanswers, drawn_of_answers hanswers', hfaces]
  exact ⟨rfl, rfl⟩

-- Two throws of two dice each, with a negative number added.
def twoThrows : Expr :=
  .repeated 2 (.binary .add (.dice { count := 2, sides := 6 }) (.constant (-1)))

/-- A source that ends and one that begins anew give one report. -/
theorem report_twoThrows :
    ∃ outcome later later' drawn drawn', twoThrows.IsBuilt ∧
      (evaluate Source.scripted.recorded twoThrows).runFrom ([3, 4, 1, 6], []) =
        (.ok outcome, later, drawn) ∧
      (evaluate Source.cyclic.recorded twoThrows).runFrom ({ all := [3, 4, 1, 6] }, []) =
        (.ok outcome, later', drawn') ∧
      drawn = drawn' := by
  have hpool : (Pool.mk 2 6 .standard).WellFormed :=
    ⟨by decide, by decide, by decide, by decide, fun h => (nomatch h)⟩
  have hbuilt : twoThrows.IsBuilt := by
    apply Expr.isBuilt_of_wellFormed
    simp only [twoThrows, Expr.WellFormed, hpool]
    decide
  refine ⟨_, _, _, _, _, hbuilt, rfl, rfl, ?_⟩
  exact (report_faithful.2 Source.scripted Source.cyclic twoThrows twoThrows [3, 4, 1, 6] _
    { all := [3, 4, 1, 6] } _ _ _ _ _ hbuilt hbuilt rfl rfl rfl).2

end DiceFormula
