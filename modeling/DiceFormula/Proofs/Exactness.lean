import DiceFormula.Proofs.Evaluation

/-!
# Evaluation is exact

For draws inside the ranges that are asked for, an evaluation succeeds if and only if the expression
comes to a value over the unbounded integers, and then with this value. Otherwise it fails, and
never for another reason than its arithmetic.
-/

namespace DiceFormula

namespace Expr

/-! ## 1. Exact values -/

theorem comesTo_binary_iff {op : Operator} {left right : Expr} {faces : List Int} {value : Value} :
    ComesTo (.binary op left right) faces value ↔
      ∃ f g a b result, faces = f ++ g ∧ value = .number result ∧ ComesTo left f (.number a) ∧
        ComesTo right g (.number b) ∧ op.exactResult? a b = some result ∧ Word.Fits result := by
  constructor
  · intro h
    cases h with
    | binary hleft hright hexact hfits =>
      exact ⟨_, _, _, _, _, rfl, rfl, hleft, hright, hexact, hfits⟩
  · rintro ⟨f, g, a, b, result, rfl, rfl, hleft, hright, hexact, hfits⟩
    exact .binary hleft hright hexact hfits

theorem comesTo_repeated_iff {count : Int} {body : Expr} {faces : List Int} {value : Value} :
    ComesTo (.repeated count body) faces value ↔
      ∃ values, value = .list values ∧ AllComeTo (List.replicate count.toNat body) faces values := by
  constructor
  · intro h
    cases h with
    | repeated hall => exact ⟨_, rfl, hall⟩
  · rintro ⟨values, rfl, hall⟩
    exact .repeated hall

theorem comesTo_sequence_iff {items : List Expr} {faces : List Int} {value : Value} :
    ComesTo (.sequence items) faces value ↔
      ∃ values, value = .list values ∧ AllComeTo items faces values := by
  constructor
  · intro h
    cases h with
    | sequence hall => exact ⟨_, rfl, hall⟩
  · rintro ⟨values, rfl, hall⟩
    exact .sequence hall

theorem allComeTo_cons_iff {item : Expr} {rest : List Expr} {faces : List Int}
    {values : List Value} :
    AllComeTo (item :: rest) faces values ↔
      ∃ f g value others, faces = f ++ g ∧ values = value :: others ∧ ComesTo item f value ∧
        AllComeTo rest g others := by
  constructor
  · intro h
    cases h with
    | cons hitem hrest => exact ⟨_, _, _, _, rfl, rfl, hitem, hrest⟩
  · rintro ⟨f, g, value, others, rfl, rfl, hitem, hrest⟩
    exact .cons hitem hrest

theorem length_of_allComeTo {items : List Expr}
    (h : ∀ item ∈ items, ∀ {faces value}, ComesTo item faces value →
      faces.length = item.plan.length)
    {faces : List Int} {values : List Value} (hall : AllComeTo items faces values) :
    faces.length = (planOfAll items).length := by
  induction items generalizing faces values with
  | nil =>
    cases hall
    rfl
  | cons item items ih =>
    obtain ⟨f, g, value, others, rfl, rfl, hitem, hrest⟩ := allComeTo_cons_iff.mp hall
    obtain ⟨hfirst, hothers⟩ := List.forall_mem_cons.mp h
    rw [planOfAll, List.length_append, List.length_append, hfirst hitem, ih hothers hrest]

/-- A value takes as many faces as the plan has draws. -/
theorem length_of_comesTo {e : Expr} {faces : List Int} {value : Value} (h : ComesTo e faces value) :
    faces.length = e.plan.length := by
  induction e generalizing faces value with
  | constant =>
    cases h
    rfl
  | dice pool =>
    cases h with
    | dice hlength => rw [hlength, plan, List.length_replicate]
  | selected selector amount pool =>
    cases h with
    | selected hlength => rw [hlength, plan, List.length_replicate]
  | binary op left right ihleft ihright =>
    obtain ⟨f, g, a, b, result, rfl, rfl, hleft, hright, -⟩ := comesTo_binary_iff.mp h
    rw [plan, List.length_append, List.length_append, ihleft hleft, ihright hright]
  | repeated count body ih =>
    obtain ⟨values, rfl, hall⟩ := comesTo_repeated_iff.mp h
    have hcopies : ∀ item ∈ List.replicate count.toNat body, ∀ {faces value},
        ComesTo item faces value → faces.length = item.plan.length :=
      List.forall_mem_replicate.mpr (.inr ih)
    rw [plan_repeated]
    exact length_of_allComeTo hcopies hall
  | sequence items ih =>
    obtain ⟨values, rfl, hall⟩ := comesTo_sequence_iff.mp h
    exact length_of_allComeTo ih hall

-- The faces of the first part are told from those of the second by their number.
theorem append_inj_of_plan {e : Expr} {f f' g g' : List Int} (h : f.length = e.plan.length)
    (h' : f'.length = e.plan.length) (heq : f ++ g = f' ++ g') : f = f' ∧ g = g' :=
  List.append_inj heq (h.trans h'.symm)

theorem comesTo_binary_append_iff {op : Operator} {left right : Expr} {f g : List Int}
    {value : Value} (hf : f.length = left.plan.length) :
    ComesTo (.binary op left right) (f ++ g) value ↔
      ∃ a b result, value = .number result ∧ ComesTo left f (.number a) ∧
        ComesTo right g (.number b) ∧ op.exactResult? a b = some result ∧ Word.Fits result := by
  rw [comesTo_binary_iff]
  constructor
  · rintro ⟨f', g', a, b, result, heq, hvalue, hleft, hright, hexact⟩
    obtain ⟨rfl, rfl⟩ := append_inj_of_plan hf (length_of_comesTo hleft) heq
    exact ⟨a, b, result, hvalue, hleft, hright, hexact⟩
  · rintro ⟨a, b, result, hvalue, hleft, hright, hexact⟩
    exact ⟨f, g, a, b, result, rfl, hvalue, hleft, hright, hexact⟩

theorem allComeTo_cons_append_iff {item : Expr} {rest : List Expr} {f g : List Int}
    {values : List Value} (hf : f.length = item.plan.length) :
    AllComeTo (item :: rest) (f ++ g) values ↔
      ∃ value others, values = value :: others ∧ ComesTo item f value ∧ AllComeTo rest g others := by
  rw [allComeTo_cons_iff]
  constructor
  · rintro ⟨f', g', value, others, heq, hvalues, hitem, hrest⟩
    obtain ⟨rfl, rfl⟩ := append_inj_of_plan hf (length_of_comesTo hitem) heq
    exact ⟨value, others, hvalues, hitem, hrest⟩
  · rintro ⟨value, others, hvalues, hitem, hrest⟩
    exact ⟨f, g, value, others, rfl, hvalues, hitem, hrest⟩

theorem allComeTo_unique {items : List Expr}
    (h : ∀ item ∈ items, ∀ {faces value value'}, ComesTo item faces value →
      ComesTo item faces value' → value = value')
    {faces : List Int} {values values' : List Value} (hall : AllComeTo items faces values)
    (hall' : AllComeTo items faces values') : values = values' := by
  induction items generalizing faces values values' with
  | nil =>
    cases hall
    cases hall'
    rfl
  | cons item items ih =>
    obtain ⟨f, g, value, others, rfl, rfl, hitem, hrest⟩ := allComeTo_cons_iff.mp hall
    obtain ⟨value', others', rfl, hitem', hrest'⟩ :=
      (allComeTo_cons_append_iff (length_of_comesTo hitem)).mp hall'
    obtain ⟨hfirst, hothers⟩ := List.forall_mem_cons.mp h
    rw [hfirst hitem hitem', ih hothers hrest hrest']

/-- The faces determine the value. -/
theorem comesTo_unique {e : Expr} {faces : List Int} {value value' : Value}
    (h : ComesTo e faces value) (h' : ComesTo e faces value') : value = value' := by
  induction e generalizing faces value value' with
  | constant =>
    cases h
    cases h'
    rfl
  | dice =>
    cases h
    cases h'
    rfl
  | selected =>
    cases h
    cases h'
    rfl
  | binary op left right ihleft ihright =>
    obtain ⟨f, g, a, b, result, rfl, rfl, hleft, hright, hexact, -⟩ := comesTo_binary_iff.mp h
    obtain ⟨a', b', result', rfl, hleft', hright', hexact', -⟩ :=
      (comesTo_binary_append_iff (length_of_comesTo hleft)).mp h'
    obtain rfl := Value.number.inj (ihleft hleft hleft')
    obtain rfl := Value.number.inj (ihright hright hright')
    rw [Option.some.inj (hexact.symm.trans hexact')]
  | repeated count body ih =>
    obtain ⟨values, rfl, hall⟩ := comesTo_repeated_iff.mp h
    obtain ⟨values', rfl, hall'⟩ := comesTo_repeated_iff.mp h'
    have hcopies : ∀ item ∈ List.replicate count.toNat body, ∀ {faces value value'},
        ComesTo item faces value → ComesTo item faces value' → value = value' :=
      List.forall_mem_replicate.mpr (.inr ih)
    rw [allComeTo_unique hcopies hall hall']
  | sequence items ih =>
    obtain ⟨values, rfl, hall⟩ := comesTo_sequence_iff.mp h
    obtain ⟨values', rfl, hall'⟩ := comesTo_sequence_iff.mp h'
    rw [allComeTo_unique ih hall hall']

theorem fits_of_comesTo {e : Expr} {faces : List Int} {value : Int}
    (h : ComesTo e faces (.number value)) : Word.Fits value := by
  cases h with
  | constant hfits => exact hfits
  | dice _ hfits => exact hfits
  | selected _ _ hfits => exact hfits
  | binary _ _ _ hfits => exact hfits

theorem isNumber_of_comesTo {e : Expr} {faces : List Int} {value : Value}
    (h : ComesTo e faces value) (hnumber : e.yieldsList = false) :
    ∃ number, value = .number number := by
  cases h with
  | constant | dice | selected | binary => exact ⟨_, rfl⟩
  | repeated => exact nomatch hnumber
  | sequence => exact nomatch hnumber

end Expr

/-! ## 2. Dice -/

variable {σ ε : Type} {source : Source σ ε} {state later : σ}

/-- A source whose answers lie in the range that it is asked for, as long as that is not empty. -/
def Source.AnswersInRange (source : Source σ ε) : Prop :=
  ∀ (lower upper : Int) (state : σ), lower ≤ upper →
    ∃ value next, source.draw lower upper state = (.ok value, next) ∧ lower ≤ value ∧ value ≤ upper

theorem Source.IsFair.answersInRange (h : source.IsFair) : source.AnswersInRange :=
  h.answer

theorem Source.AnswersInRange.replicate (h : source.AnswersInRange) {lower upper : Int}
    (hle : lower ≤ upper) (count : Nat) (state : σ) :
    ∃ faces later, source.answers (List.replicate count (lower, upper)) state = (.ok faces, later) ∧
      ∀ face ∈ faces, lower ≤ face ∧ face ≤ upper := by
  induction count generalizing state with
  | zero => exact ⟨[], state, rfl, fun face hface => (nomatch hface)⟩
  | succ count ih =>
    obtain ⟨face, middle, hdraw, hface⟩ := h lower upper state hle
    obtain ⟨faces, later, hanswers, hfaces⟩ := ih middle
    refine ⟨face :: faces, later, ?_, List.forall_mem_cons.mpr ⟨hface, hfaces⟩⟩
    exact Source.answers_cons_eq_ok_iff.mpr ⟨face, faces, middle, rfl, hdraw, hanswers⟩

theorem Source.AnswersInRange.shows (h : source.AnswersInRange) {pool : Pool}
    (hpool : pool.WellFormed) (state : σ) :
    ∃ faces later, source.answers (Expr.dice pool).plan state = (.ok faces, later) ∧
      pool.Shows faces := by
  obtain ⟨faces, later, hanswers, hfaces⟩ :=
    h.replicate (Expr.leastFace_le_greatestFace hpool) pool.count.toNat state
  have hlength := Source.length_of_answers hanswers
  rw [List.length_replicate] at hlength
  exact ⟨faces, later, hanswers, hlength, hfaces⟩

theorem evaluatePool_of_sumFrom {pool : Pool} {faces : List Int} {sum : Int}
    (h : source.answers (Expr.dice pool).plan state = (.ok faces, later))
    (hsum : sumFrom 0 faces = .ok sum) :
    (evaluatePool source pool).runFrom state =
      (.ok (.node (.dice pool) (.number sum) (pool.rollsOf faces) [] []), later) := by
  rw [evaluatePool, Rolling.runFrom_bind_of_ok (throwDice_of_sumFrom h hsum)]
  rfl

theorem evaluatePool_of_sumFrom_error {pool : Pool} {faces : List Int} {fault : OwnFault}
    (h : source.answers (Expr.dice pool).plan state = (.ok faces, later))
    (hsum : sumFrom 0 faces = .error fault) :
    ∃ middle, (evaluatePool source pool).runFrom state = (.error fault, middle) := by
  obtain ⟨middle, hthrow⟩ := throwDice_of_sumFrom_error h hsum
  exact ⟨middle, Rolling.runFrom_bind_of_error hthrow⟩

theorem evaluateSelected_of_sumFrom {selector : Selector} {amount sum kept : Int} {pool : Pool}
    {faces : List Int} (h : source.answers (Expr.dice pool).plan state = (.ok faces, later))
    (hsum : sumFrom 0 faces = .ok sum)
    (hkept : sumFrom 0 (selector.keptFaces amount pool faces) = .ok kept) :
    ∃ outcome, (evaluateSelected source selector amount pool).runFrom state = (.ok outcome, later) ∧
      outcome.value = .number kept ∧
      outcome.kept =
        keepByRank (pool.rollsOf faces) (selector.leaves amount pool) selector.prefersHigh := by
  rw [evaluateSelected, Rolling.runFrom_bind_of_ok (evaluatePool_of_sumFrom h hsum)]
  exact ⟨_, Rolling.runFrom_bind_of_ok (Rolling.runFrom_ofExcept_eq_ok_iff.mpr ⟨hkept, rfl⟩), rfl,
    rfl⟩

theorem evaluateSelected_of_sumFrom_error {selector : Selector} {amount sum : Int} {pool : Pool}
    {faces : List Int} {fault : OwnFault}
    (h : source.answers (Expr.dice pool).plan state = (.ok faces, later))
    (hsum : sumFrom 0 faces = .ok sum)
    (hkept : sumFrom 0 (selector.keptFaces amount pool faces) = .error fault) :
    (evaluateSelected source selector amount pool).runFrom state = (.error fault, later) := by
  have hrun : (Rolling.ofExcept (sumFrom 0 (selector.keptFaces amount pool faces)) :
      Rolling σ ε Int).runFrom later = (.error fault, later) := by
    rw [Rolling.runFrom_ofExcept, hkept]
    rfl
  rw [evaluateSelected, Rolling.runFrom_bind_of_ok (evaluatePool_of_sumFrom h hsum)]
  exact Rolling.runFrom_bind_of_error hrun

/-! ## 3. Expressions -/

namespace Expr

/-- The draws of an evaluation settle how it ends: with the exact value and behind all the draws of
the plan, or with a fault of the arithmetic and without an exact value. -/
def Settles (source : Source σ ε) (e : Expr) (state : σ) : Prop :=
  ∃ faces later, source.answers e.plan state = (.ok faces, later) ∧
    ((∃ outcome, (evaluate source e).runFrom state = (.ok outcome, later) ∧
        ComesTo e faces outcome.value) ∨
      ((∃ cause middle, (evaluate source e).runFrom state = (.error (.evaluation cause), middle)) ∧
        ∀ value, ¬ ComesTo e faces value))

theorem settles_dice (hsource : source.AnswersInRange) {pool : Pool} (hpool : pool.WellFormed)
    (state : σ) : Settles source (.dice pool) state := by
  obtain ⟨faces, later, hanswers, hshows⟩ := hsource.shows hpool state
  refine ⟨faces, later, hanswers, ?_⟩
  rcases hshows.sumFrom_eq hpool (List.Sublist.refl faces) with ⟨hsum, hfits⟩ | ⟨⟨cause, hsum⟩, hlarge⟩
  · exact .inl ⟨_, evaluatePool_of_sumFrom hanswers hsum, .dice hshows.1 hfits⟩
  · refine .inr ⟨⟨cause, evaluatePool_of_sumFrom_error hanswers hsum⟩, fun value hvalue => ?_⟩
    cases hvalue with
    | dice _ hfits => exact hlarge hfits

theorem settles_selected (hsource : source.AnswersInRange) {pool : Pool} (hpool : pool.WellFormed)
    (selector : Selector) (amount : Int) (state : σ) :
    Settles source (.selected selector amount pool) state := by
  obtain ⟨faces, later, hanswers, hshows⟩ := hsource.shows hpool state
  refine ⟨faces, later, hanswers, ?_⟩
  rw [evaluate]
  rcases hshows.sumFrom_eq hpool (List.Sublist.refl faces) with ⟨hsum, hfits⟩ | ⟨⟨cause, hsum⟩, hlarge⟩
  · rcases hshows.sumFrom_eq hpool (keptFaces_sublist selector amount pool faces) with
      ⟨hkept, hkeptFits⟩ | ⟨⟨cause, hkept⟩, hkeptLarge⟩
    · obtain ⟨outcome, hrun, hvalue, -⟩ := evaluateSelected_of_sumFrom hanswers hsum hkept
      refine .inl ⟨outcome, hrun, ?_⟩
      rw [hvalue]
      exact .selected hshows.1 hfits hkeptFits
    · refine .inr ⟨⟨cause, later, evaluateSelected_of_sumFrom_error hanswers hsum hkept⟩, ?_⟩
      intro value hvalue
      cases hvalue with
      | selected _ _ hfits => exact hkeptLarge hfits
  · obtain ⟨middle, hthrow⟩ := evaluatePool_of_sumFrom_error hanswers hsum
    refine .inr ⟨⟨cause, middle, Rolling.runFrom_bind_of_error hthrow⟩, fun value hvalue => ?_⟩
    cases hvalue with
    | selected _ hfits => exact hlarge hfits

theorem combine_settles (op : Operator) {x y : Int} (hx : Word.Fits x) (hy : Word.Fits y) :
    (∃ result, combine op (.number x) (.number y) = .ok result ∧ op.exactResult? x y = some result ∧
        Word.Fits result) ∨
      ((∃ cause, combine op (.number x) (.number y) = .error (.evaluation cause)) ∧
        ∀ result, op.exactResult? x y = some result → ¬ Word.Fits result) := by
  have heq : combine op (.number x) (.number y) = (op.apply x y).mapError .evaluation := rfl
  rw [heq]
  cases happly : op.apply x y with
  | ok result => exact .inl ⟨result, rfl, (Operator.apply_eq_ok_iff hx hy).mp happly⟩
  | error cause =>
    refine .inr ⟨⟨cause, rfl⟩, fun result hexact hfits => ?_⟩
    have hok := (Operator.apply_eq_ok_iff hx hy).mpr ⟨hexact, hfits⟩
    rw [happly] at hok
    exact nomatch hok

theorem settles_binary {op : Operator} {left right : Expr} (hleft : left.yieldsList = false)
    (hright : right.yieldsList = false) (ihleft : ∀ state, Settles source left state)
    (ihright : ∀ state, Settles source right state) (state : σ) :
    Settles source (.binary op left right) state := by
  obtain ⟨f, middle, hf, hends⟩ := ihleft state
  -- The right operand is asked for its draws even where the left one has already failed.
  obtain ⟨g, later, hg, hends'⟩ := ihright middle
  have hiff := fun value =>
    @comesTo_binary_append_iff op left right f g value (Source.length_of_answers hf)
  refine ⟨f ++ g, later, Source.answers_append_eq_ok_iff.mpr ⟨f, g, middle, rfl, hf, hg⟩, ?_⟩
  rw [evaluate]
  rcases hends with ⟨a, hrun, ha⟩ | ⟨⟨cause, last, hrun⟩, hnone⟩
  · rw [Rolling.runFrom_bind_of_ok hrun]
    rcases hends' with ⟨b, hrun', hb⟩ | ⟨⟨cause, last, hrun'⟩, hnone⟩
    · rw [Rolling.runFrom_bind_of_ok hrun']
      obtain ⟨x, hx⟩ := isNumber_of_comesTo ha hleft
      obtain ⟨y, hy⟩ := isNumber_of_comesTo hb hright
      rw [hx] at ha ⊢
      rw [hy] at hb ⊢
      rcases combine_settles op (fits_of_comesTo ha) (fits_of_comesTo hb) with
        ⟨result, hcombine, hexact, hfits⟩ | ⟨⟨cause, hcombine⟩, hlost⟩
      · rw [Rolling.runFrom_bind_of_ok (Rolling.runFrom_ofExcept_eq_ok_iff.mpr ⟨hcombine, rfl⟩)]
        exact .inl ⟨_, rfl, .binary ha hb hexact hfits⟩
      · rw [hcombine, Rolling.runFrom_bind_of_error (Rolling.runFrom_ofExcept _ _)]
        refine .inr ⟨⟨cause, later, rfl⟩, fun value hvalue => ?_⟩
        -- A value of the whole would come from the values of the operands, which are unique.
        obtain ⟨x', y', result, -, hx', hy', hexact, hfits⟩ := (hiff value).mp hvalue
        obtain rfl := Value.number.inj (comesTo_unique ha hx')
        obtain rfl := Value.number.inj (comesTo_unique hb hy')
        exact hlost result hexact hfits
    · rw [Rolling.runFrom_bind_of_error hrun']
      refine .inr ⟨⟨cause, last, rfl⟩, fun value hvalue => ?_⟩
      obtain ⟨x, y, result, -, -, hy, -⟩ := (hiff value).mp hvalue
      exact hnone _ hy
  · rw [Rolling.runFrom_bind_of_error hrun]
    refine .inr ⟨⟨cause, last, rfl⟩, fun value hvalue => ?_⟩
    obtain ⟨x, y, result, -, hx, -⟩ := (hiff value).mp hvalue
    exact hnone _ hx

/-- The draws of several evaluations settle how they end. -/
def AllSettle (source : Source σ ε) (items : List Expr) (state : σ) : Prop :=
  ∃ faces later, source.answers (planOfAll items) state = (.ok faces, later) ∧
    ((∃ outcomes, (evaluateAll source items).runFrom state = (.ok outcomes, later) ∧
        AllComeTo items faces (outcomes.map Outcome.value)) ∨
      ((∃ cause middle, (evaluateAll source items).runFrom state =
          (.error (.evaluation cause), middle)) ∧
        ∀ values, ¬ AllComeTo items faces values))

theorem allSettle {items : List Expr} (h : ∀ item ∈ items, ∀ state, Settles source item state)
    (state : σ) : AllSettle source items state := by
  induction items generalizing state with
  | nil => exact ⟨[], state, rfl, .inl ⟨[], rfl, .nil⟩⟩
  | cons item items ih =>
    obtain ⟨hitem, hitems⟩ := List.forall_mem_cons.mp h
    obtain ⟨f, middle, hf, hends⟩ := hitem state
    obtain ⟨g, later, hg, hends'⟩ := ih hitems middle
    have hiff := fun values =>
      @allComeTo_cons_append_iff item items f g values (Source.length_of_answers hf)
    refine ⟨f ++ g, later, Source.answers_append_eq_ok_iff.mpr ⟨f, g, middle, rfl, hf, hg⟩, ?_⟩
    rw [evaluateAll]
    rcases hends with ⟨a, hrun, ha⟩ | ⟨⟨cause, last, hrun⟩, hnone⟩
    · rw [Rolling.runFrom_bind_of_ok hrun]
      rcases hends' with ⟨others, hrun', hothers⟩ | ⟨⟨cause, last, hrun'⟩, hnone⟩
      · rw [Rolling.runFrom_bind_of_ok hrun']
        exact .inl ⟨_, rfl, .cons ha hothers⟩
      · rw [Rolling.runFrom_bind_of_error hrun']
        refine .inr ⟨⟨cause, last, rfl⟩, fun values hvalues => ?_⟩
        obtain ⟨value, others, -, -, hothers⟩ := (hiff values).mp hvalues
        exact hnone _ hothers
    · rw [Rolling.runFrom_bind_of_error hrun]
      refine .inr ⟨⟨cause, last, rfl⟩, fun values hvalues => ?_⟩
      obtain ⟨value, others, -, hvalue, -⟩ := (hiff values).mp hvalues
      exact hnone _ hvalue

-- Repetitions and sequences differ only in the list of their parts.
theorem settles_ofList {e : Expr} {items : List Expr} (hplan : e.plan = planOfAll items)
    (hevaluate : evaluate source e =
      evaluateAll source items >>= fun outcomes => pure (.ofList e outcomes))
    (hcomes : ∀ {faces value}, ComesTo e faces value ↔
      ∃ values, value = .list values ∧ AllComeTo items faces values)
    (h : AllSettle source items state) : Settles source e state := by
  obtain ⟨faces, later, hanswers, hends⟩ := h
  rw [Settles, hplan, hevaluate]
  refine ⟨faces, later, hanswers, ?_⟩
  rcases hends with ⟨outcomes, hrun, hall⟩ | ⟨⟨cause, last, hrun⟩, hnone⟩
  · rw [Rolling.runFrom_bind_of_ok hrun]
    exact .inl ⟨_, rfl, hcomes.mpr ⟨_, rfl, hall⟩⟩
  · rw [Rolling.runFrom_bind_of_error hrun]
    refine .inr ⟨⟨cause, last, rfl⟩, fun value hvalue => ?_⟩
    obtain ⟨values, -, hall⟩ := hcomes.mp hvalue
    exact hnone values hall

theorem settles_repeated {count : Int} {body : Expr}
    (h : AllSettle source (List.replicate count.toNat body) state) :
    Settles source (.repeated count body) state := by
  refine settles_ofList (plan_repeated count body) ?_ comesTo_repeated_iff h
  rw [evaluate, times_evaluate]

theorem settles_sequence {items : List Expr} (h : AllSettle source items state) :
    Settles source (.sequence items) state := by
  refine settles_ofList ?_ ?_ comesTo_sequence_iff h
  · rw [plan]
  · rw [evaluate]

/-- Every evaluation of a well-formed expression is settled by its draws. -/
theorem settles (hsource : source.AnswersInRange) {e : Expr} (he : e.WellFormed) (state : σ) :
    Settles source e state := by
  induction e generalizing state with
  | constant value => exact ⟨[], state, rfl, .inl ⟨_, rfl, .constant he⟩⟩
  | dice pool => exact settles_dice hsource he state
  | selected selector amount pool => exact settles_selected hsource he.1 selector amount state
  | binary op left right ihleft ihright =>
    exact settles_binary he.2.2.1 he.2.2.2 (ihleft he.1) (ihright he.2.1) state
  | repeated count body ih =>
    have hcopies : ∀ item ∈ List.replicate count.toNat body, ∀ state, Settles source item state :=
      List.forall_mem_replicate.mpr (.inr (ih he.1))
    exact settles_repeated (allSettle hcopies state)
  | sequence items ih =>
    have hitems := areItems_iff.mp he.1
    exact settles_sequence (allSettle (fun item hitem => ih item hitem (hitems item hitem).1) state)

theorem allComeTo_of_evaluateAll {items : List Expr} {outcomes : List Outcome}
    (hitems : ∀ item ∈ items, ∀ {state later : σ} {outcome : Outcome},
      (evaluate source item).runFrom state = (.ok outcome, later) →
        ComesTo item outcome.faces outcome.value)
    (h : (evaluateAll source items).runFrom state = (.ok outcomes, later)) :
    AllComeTo items (Outcome.facesOfAll outcomes) (outcomes.map Outcome.value) := by
  induction items generalizing state outcomes with
  | nil =>
    obtain ⟨rfl, rfl⟩ := Rolling.runFrom_pure_eq_ok_iff.mp h
    exact .nil
  | cons item items ih =>
    rw [evaluateAll] at h
    obtain ⟨outcome, middle, hfirst, h⟩ := Rolling.runFrom_bind_eq_ok_iff.mp h
    obtain ⟨others, last, hrest, h⟩ := Rolling.runFrom_bind_eq_ok_iff.mp h
    obtain ⟨rfl, rfl⟩ := Rolling.runFrom_pure_eq_ok_iff.mp h
    obtain ⟨hitem, hitems⟩ := List.forall_mem_cons.mp hitems
    exact .cons (hitem hfirst) (ih hitems hrest)

/-- Whatever the source answers, a value that is given is the exact one. -/
theorem comesTo_of_evaluate {e : Expr} (he : e.WellFormed) {outcome : Outcome}
    (h : (evaluate source e).runFrom state = (.ok outcome, later)) :
    ComesTo e outcome.faces outcome.value := by
  have hzero : Word.Fits 0 := by decide
  induction e generalizing state later outcome with
  | constant value =>
    obtain ⟨rfl, rfl⟩ := Rolling.runFrom_pure_eq_ok_iff.mp h
    exact .constant he
  | dice pool =>
    obtain ⟨faces, hanswers, hsum, rfl⟩ := exists_of_evaluatePool h
    rw [Outcome.faces_dice]
    exact .dice (length_of_answers_dice hanswers) (fits_of_sumFrom hzero hsum)
  | selected selector amount pool =>
    obtain ⟨faces, hanswers, hsum, hkept, rfl⟩ := exists_of_evaluateSelected h
    rw [Outcome.faces_selected]
    exact .selected (length_of_answers_dice hanswers) (fits_of_sumFrom hzero hsum)
      (fits_of_sumFrom hzero hkept)
  | binary op left right ihleft ihright =>
    obtain ⟨a, b, x, y, result, middle, hleft, hright, hx, hy, hexact, hfits, rfl⟩ :=
      exists_of_evaluate_binary h
    have ha := ihleft he.1 hleft
    have hb := ihright he.2.1 hright
    rw [hx] at ha
    rw [hy] at hb
    rw [Outcome.faces_binary]
    exact .binary ha hb hexact hfits
  | repeated count body ih =>
    rw [evaluate, times_evaluate] at h
    obtain ⟨outcomes, middle, hall, h⟩ := Rolling.runFrom_bind_eq_ok_iff.mp h
    obtain ⟨rfl, rfl⟩ := Rolling.runFrom_pure_eq_ok_iff.mp h
    have hcopies : ∀ item ∈ List.replicate count.toNat body, ∀ {state later : σ} {outcome : Outcome},
        (evaluate source item).runFrom state = (.ok outcome, later) →
          ComesTo item outcome.faces outcome.value :=
      List.forall_mem_replicate.mpr (.inr (ih he.1))
    exact .repeated (allComeTo_of_evaluateAll hcopies hall)
  | sequence items ih =>
    rw [evaluate] at h
    obtain ⟨outcomes, middle, hall, h⟩ := Rolling.runFrom_bind_eq_ok_iff.mp h
    obtain ⟨rfl, rfl⟩ := Rolling.runFrom_pure_eq_ok_iff.mp h
    have hitems := areItems_iff.mp he.1
    exact .sequence
      (allComeTo_of_evaluateAll (fun item hitem => ih item hitem (hitems item hitem).1) hall)

/-- An evaluation succeeds with a value if and only if the expression comes to that value for the
draws, handed out to the dice from left to right; where it comes to none, a fault of the arithmetic
is reported. -/
theorem evaluate_exact {e : Expr} (he : e.IsBuilt) (hsource : source.AnswersInRange) (state : σ) :
    ∃ faces later, source.answers e.plan state = (.ok faces, later) ∧
      (∀ value, (∃ outcome, (evaluate source e).runFrom state = (.ok outcome, later) ∧
          outcome.value = value ∧ outcome.faces = faces) ↔ ComesTo e faces value) ∧
      ((∀ value, ¬ ComesTo e faces value) →
        ∃ cause, ((evaluate source e).runFrom state).1 = .error (.evaluation cause)) := by
  have hfit := wellFormed_of_isBuilt he
  obtain ⟨faces, later, hanswers, hends⟩ := settles hsource hfit state
  refine ⟨faces, later, hanswers, ?_⟩
  rcases hends with ⟨outcome, hrun, hvalue⟩ | ⟨⟨cause, last, hrun⟩, hnone⟩
  · have hdrawn := (isDrawn_of_evaluate hfit hrun).1
    rw [hanswers] at hdrawn
    have hfaces : faces = outcome.faces := Except.ok.inj (congrArg Prod.fst hdrawn)
    refine ⟨fun value => ⟨?_, fun hother => ?_⟩, fun hno => absurd hvalue (hno _)⟩
    · rintro ⟨outcome', hrun', rfl, -⟩
      rw [hrun] at hrun'
      obtain rfl := Except.ok.inj (congrArg Prod.fst hrun')
      exact hvalue
    · exact ⟨outcome, hrun, comesTo_unique hvalue hother, hfaces.symm⟩
  · refine ⟨fun value => ⟨?_, fun hvalue => absurd hvalue (hnone value)⟩, fun _ => ⟨cause, ?_⟩⟩
    · rintro ⟨outcome, hrun', -⟩
      rw [hrun] at hrun'
      exact nomatch congrArg Prod.fst hrun'
    · rw [hrun]

def hugeDice (sides : Int) : Expr :=
  .selected .dropLowest 1 { count := 2, sides := sides }

/-- One of the dice is dropped, but both count. Twice the one face is a word, and twice the other
one is the first number that is none. -/
theorem evaluate_hugeDice :
    (hugeDice 4611686018427387903).IsBuilt ∧ (hugeDice 4611686018427387904).IsBuilt ∧
      Source.greatest.AnswersInRange ∧
      (∃ outcome, (evaluate Source.greatest (hugeDice 4611686018427387903)).runFrom () =
          (.ok outcome, ()) ∧ outcome.value = .number 4611686018427387903 ∧
        outcome.faces = [4611686018427387903, 4611686018427387903]) ∧
      ∃ cause, ((evaluate Source.greatest (hugeDice 4611686018427387904)).runFrom ()).1 =
        .error (.evaluation cause) := by
  have hbuilt : (hugeDice 4611686018427387903).IsBuilt := isBuilt_of_wellFormed (by decide)
  have hbuilt' : (hugeDice 4611686018427387904).IsBuilt := isBuilt_of_wellFormed (by decide)
  have hsource : Source.greatest.AnswersInRange :=
    fun lower upper state hle => ⟨upper, state, rfl, hle, Int.le_refl upper⟩
  refine ⟨hbuilt, hbuilt', hsource, ?_, ?_⟩
  · obtain ⟨faces, later, hanswers, hvalue, -⟩ := evaluate_exact hbuilt hsource ()
    have hdraws : Source.greatest.answers (hugeDice 4611686018427387903).plan () =
        (.ok [4611686018427387903, 4611686018427387903], ()) := rfl
    obtain ⟨hfaces, -⟩ := Prod.mk.inj (hdraws.symm.trans hanswers)
    obtain rfl := Except.ok.inj hfaces
    have hkept : (Selector.dropLowest.keptFaces 1 { count := 2, sides := 4611686018427387903 }
        [4611686018427387903, 4611686018427387903]).sum = 4611686018427387903 := by cbv
    have hcomes : ComesTo (hugeDice 4611686018427387903)
        [4611686018427387903, 4611686018427387903] _ :=
      .selected rfl (by decide) (by rw [hkept]; decide)
    rw [hkept] at hcomes
    exact (hvalue _).mpr hcomes
  · obtain ⟨faces, later, hanswers, -, hfails⟩ := evaluate_exact hbuilt' hsource ()
    have hdraws : Source.greatest.answers (hugeDice 4611686018427387904).plan () =
        (.ok [4611686018427387904, 4611686018427387904], ()) := rfl
    obtain ⟨hfaces, -⟩ := Prod.mk.inj (hdraws.symm.trans hanswers)
    obtain rfl := Except.ok.inj hfaces
    refine hfails fun value hvalue => ?_
    cases hvalue with
    | selected _ hfits => exact absurd hfits (by decide)

end Expr

end DiceFormula
