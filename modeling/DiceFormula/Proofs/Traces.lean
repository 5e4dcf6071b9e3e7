import DiceFormula.Outcome.Follows
import DiceFormula.Outcome.Report
import DiceFormula.Proofs.Decimal
import DiceFormula.Proofs.Dice

/-!
# Traces

A trace begins with the text of its expression, and the thrown dice stand behind it in front of
everything else. The end of the text is told by an equals sign, which no text contains, and the
faces of the dice by the brackets around them.
-/

namespace DiceFormula

/-! ## 1. Bytes -/

/-- The bytes of numbers. -/
def numberBytes : Bytes :=
  bytes "0123456789-"

/-- The bytes of canonical texts. -/
def textBytes : Bytes :=
  bytes "0123456789+-*/(), dFkhl"

/-- The bytes of traces and of values. -/
def traceBytes : Bytes :=
  textBytes ++ bytes "[]=>"

theorem joinWith_subset {alphabet separator : Bytes} {parts : List Bytes}
    (hseparator : separator ⊆ alphabet) (hparts : ∀ part ∈ parts, part ⊆ alphabet) :
    joinWith separator parts ⊆ alphabet := by
  induction parts with
  | nil => exact List.nil_subset alphabet
  | cons part parts ih =>
    obtain ⟨hpart, hrest⟩ := List.forall_mem_cons.mp hparts
    cases parts with
    | nil => exact hpart
    | cons next rest =>
      rw [joinWith_cons_cons, List.append_subset, List.append_subset]
      exact ⟨⟨hpart, hseparator⟩, ih hrest⟩

theorem ofInt_subset_numberBytes (i : Int) : Decimal.ofInt i ⊆ numberBytes := by
  have hdigit : ∀ b : UInt8, isDigit b = true → b ∈ numberBytes := by decide +kernel
  have hdigits : Decimal.ofNat i.natAbs ⊆ numberBytes :=
    fun b hb => hdigit b (Decimal.isDigit_of_mem_ofNat b hb)
  unfold Decimal.ofInt
  split
  · exact List.cons_subset.mpr ⟨by decide, hdigits⟩
  · exact hdigits

theorem ofInt_subset (i : Int) : Decimal.ofInt i ⊆ textBytes :=
  List.Subset.trans (ofInt_subset_numberBytes i) (by decide)

theorem Pool.text_subset (pool : Pool) : pool.text ⊆ textBytes := by
  unfold Pool.text
  rw [List.append_subset, List.append_subset]
  refine ⟨⟨ofInt_subset _, by decide⟩, ?_⟩
  cases pool.kind with
  | standard => exact ofInt_subset _
  | fudge => exact (by decide : bytes "F" ⊆ textBytes)

theorem Expr.text_subset (e : Expr) : e.text ⊆ textBytes := by
  induction e with
  | constant value => exact ofInt_subset value
  | dice pool => exact pool.text_subset
  | selected selector amount pool =>
    have hletters : selector.letters ⊆ textBytes := by cases selector <;> decide
    simp only [text, List.append_subset]
    exact ⟨⟨⟨pool.text_subset, by decide⟩, hletters⟩, ofInt_subset amount⟩
  | binary op left right ihleft ihright =>
    have hsymbol : [op.symbol] ⊆ textBytes := by cases op <;> decide
    have hblank : bytes " " ⊆ textBytes := by decide
    simp only [text, List.append_subset]
    exact ⟨⟨⟨⟨⟨⟨by decide, ihleft⟩, hblank⟩, hsymbol⟩, hblank⟩, ihright⟩, by decide⟩
  | repeated count body ih =>
    simp only [text, List.append_subset]
    exact ⟨⟨ofInt_subset count, by decide⟩, ih⟩
  | sequence items ih =>
    rw [text, texts_eq_map]
    refine joinWith_subset (by decide) fun part hpart => ?_
    obtain ⟨item, hitem, rfl⟩ := List.mem_map.mp hpart
    exact ih item hitem

theorem Operator.symbol_subset (op : Operator) : [op.symbol] ⊆ traceBytes := by
  cases op <;> decide

theorem textBytes_subset : textBytes ⊆ traceBytes :=
  List.subset_append_left _ _

theorem Value.format_subset (value : Value) : value.format ⊆ traceBytes := by
  induction value with
  | number value => exact List.Subset.trans (ofInt_subset value) textBytes_subset
  | list items ih =>
    rw [format, formats_eq_map, List.append_subset, List.append_subset]
    refine ⟨⟨by decide, joinWith_subset (by decide) fun part hpart => ?_⟩, by decide⟩
    obtain ⟨item, hitem, rfl⟩ := List.mem_map.mp hpart
    exact ih item hitem

theorem joinWith_faces_subset {separator : Bytes} (h : separator ⊆ traceBytes) (rolls : List Roll) :
    joinWith separator (rolls.map fun roll => Decimal.ofInt roll.value) ⊆ traceBytes := by
  refine joinWith_subset h fun part hpart => ?_
  obtain ⟨roll, -, rfl⟩ := List.mem_map.mp hpart
  exact List.Subset.trans (ofInt_subset roll.value) textBytes_subset

theorem formatFaces_subset (rolls : List Roll) : formatFaces rolls ⊆ traceBytes := by
  rw [formatFaces, List.append_subset, List.append_subset]
  exact ⟨⟨by decide, joinWith_faces_subset (by decide) rolls⟩, by decide⟩

/-! ## 2. Items between brackets -/

/-- Of two texts with different items in front, neither goes on where the other ends, unless it goes
on with a digit. -/
def ToldApart {α : Type} (text : α → Bytes) (item : α) : Prop :=
  ∀ (item' : α) (rest rest' : Bytes), rest.takeWhile isDigit = [] → rest'.takeWhile isDigit = [] →
    text item ++ rest = text item' ++ rest' → item = item' ∧ rest = rest'

theorem toldApart_ofInt (i : Int) : ToldApart Decimal.ofInt i :=
  fun _ _ _ hrest hrest' h => Decimal.ofInt_append_inj hrest hrest' h

section Items

variable {α : Type} {text : α → Bytes} {items items' : List α} {rest rest' : Bytes}

-- A comma or a bracket stands behind each item.
theorem takeWhile_separated (items : List α) (rest : Bytes) :
    (items.flatMap (fun item => bytes ", " ++ text item) ++ ascii ']' :: rest).takeWhile isDigit =
      [] := by
  cases items with
  | nil => rfl
  | cons item items =>
    rw [List.flatMap_cons]
    rfl

theorem separated_append_inj (hitems : ∀ item ∈ items, ToldApart text item)
    (h : items.flatMap (fun item => bytes ", " ++ text item) ++ ascii ']' :: rest =
      items'.flatMap (fun item => bytes ", " ++ text item) ++ ascii ']' :: rest') :
    items = items' ∧ rest = rest' := by
  induction items generalizing items' with
  | nil =>
    cases items' with
    | nil => exact ⟨rfl, (List.cons.inj h).2⟩
    | cons item' items' =>
      rw [List.flatMap_cons] at h
      exact absurd (List.cons.inj h).1 (by decide)
  | cons item items ih =>
    cases items' with
    | nil =>
      rw [List.flatMap_cons] at h
      exact absurd (List.cons.inj h).1 (by decide)
    | cons item' items' =>
      obtain ⟨hitem, hitems⟩ := List.forall_mem_cons.mp hitems
      simp only [List.flatMap_cons, List.append_assoc] at h
      obtain ⟨rfl, htail⟩ := hitem item' _ _ (takeWhile_separated items rest)
        (takeWhile_separated items' rest') (List.append_cancel_left h)
      obtain ⟨rfl, hrest⟩ := ih hitems htail
      exact ⟨rfl, hrest⟩

/-- Items are told apart by the commas between them, and their end by the bracket. -/
theorem joinWith_append_inj (hitems : ∀ item ∈ items, ToldApart text item)
    (hclose : ∀ (item : α) (rest rest' : Bytes), text item ++ rest ≠ ascii ']' :: rest')
    (h : joinWith (bytes ", ") (items.map text) ++ ascii ']' :: rest =
      joinWith (bytes ", ") (items'.map text) ++ ascii ']' :: rest') :
    items = items' ∧ rest = rest' := by
  cases items with
  | nil =>
    cases items' with
    | nil => exact ⟨rfl, (List.cons.inj h).2⟩
    | cons item' items' =>
      rw [List.map_cons, joinWith_cons, List.append_assoc] at h
      exact absurd h.symm (hclose item' _ _)
  | cons item items =>
    cases items' with
    | nil =>
      rw [List.map_cons, joinWith_cons, List.append_assoc] at h
      exact absurd h (hclose item _ _)
    | cons item' items' =>
      obtain ⟨hitem, hitems⟩ := List.forall_mem_cons.mp hitems
      simp only [List.map_cons, joinWith_cons, List.flatMap_map, List.append_assoc] at h
      obtain ⟨rfl, htail⟩ := hitem item' _ _ (takeWhile_separated items rest)
        (takeWhile_separated items' rest') h
      obtain ⟨rfl, hrest⟩ := separated_append_inj hitems htail
      exact ⟨rfl, hrest⟩

end Items

/-- A text of certain bytes does not begin with another one. -/
theorem append_ne_cons {alphabet text : Bytes} {b : UInt8} (hne : text ≠ [])
    (htext : text ⊆ alphabet) (hb : b ∉ alphabet) (rest rest' : Bytes) :
    text ++ rest ≠ b :: rest' := by
  obtain ⟨c, others, rfl⟩ := List.exists_cons_of_ne_nil hne
  intro h
  obtain rfl := (List.cons.inj h).1
  exact hb (htext List.mem_cons_self)

theorem ofInt_append_ne_cons {b : UInt8} (hb : b ∉ numberBytes) (i : Int) (rest rest' : Bytes) :
    Decimal.ofInt i ++ rest ≠ b :: rest' :=
  append_ne_cons (Decimal.ofInt_ne_nil i) (ofInt_subset_numberBytes i) hb rest rest'

namespace Outcome

-- Neither newlines nor capital letters, apart from the one of fudge dice, ever appear.
theorem thrownText_subset (outcome : Outcome) : outcome.thrownText ⊆ traceBytes := by
  fun_induction thrownText outcome with
  | case1 => exact formatFaces_subset _
  | case2 => exact formatFaces_subset _
  | case3 op _ _ _ _ _ left right _ ihleft ihright =>
    have hblank : bytes " " ⊆ traceBytes := by decide
    simp only [List.append_subset]
    exact ⟨⟨⟨⟨⟨⟨by decide, ihleft⟩, hblank⟩, op.symbol_subset⟩, hblank⟩, ihright⟩, by decide⟩
  | case4 => exact List.Subset.trans (Expr.text_subset _) textBytes_subset

theorem lastStep_subset (outcome : Outcome) : outcome.lastStep ⊆ traceBytes := by
  fun_cases lastStep outcome with
  | case1 => exact joinWith_faces_subset (by decide) _
  | case2 => exact joinWith_faces_subset (by decide) _
  | case3 op =>
    have hblank : bytes " " ⊆ traceBytes := by decide
    simp only [List.append_subset]
    exact ⟨⟨⟨⟨Value.format_subset _, hblank⟩, op.symbol_subset⟩, hblank⟩, Value.format_subset _⟩
  | case4 => exact List.nil_subset _

/-! ## 3. Stages -/

/-- What may stand behind the text of a trace: nothing, or an arrow or an equals sign. -/
def Continues (tail : Bytes) : Prop :=
  tail = [] ∨ ∃ rest, tail = ascii ' ' :: ascii '=' :: rest

theorem Continues.append {front tail : Bytes} (h : Continues front) (htail : Continues tail) :
    Continues (front ++ tail) := by
  rcases h with rfl | ⟨rest, rfl⟩
  · exact htail
  · exact .inr ⟨rest ++ tail, rfl⟩

/-- The stages in front of the last step. -/
def opening (outcome : Outcome) : Bytes :=
  if outcome.thrownText = outcome.expr.text then outcome.expr.text
  else outcome.expr.text ++ (bytes " => " ++ outcome.thrownText)

theorem joinWith_append_singleton {separator last : Bytes} {parts : List Bytes} (h : parts ≠ []) :
    joinWith separator (parts ++ [last]) = joinWith separator parts ++ (separator ++ last) := by
  induction parts with
  | nil => exact absurd rfl h
  | cons part parts ih =>
    cases parts with
    | nil => rw [joinWith_singleton, List.singleton_append, joinWith_cons_cons, joinWith_singleton,
        List.append_assoc]
    | cons next rest =>
      have hrest := ih (List.cons_ne_nil next rest)
      rw [List.cons_append] at hrest ⊢
      rw [List.cons_append, joinWith_cons_cons, hrest, joinWith_cons_cons,
        List.append_assoc _ _ (separator ++ last)]

theorem joinWith_stages (outcome : Outcome) :
    ∃ tail, Continues tail ∧ tail ⊆ traceBytes ∧
      joinWith (bytes " => ") outcome.stages = outcome.opening ++ tail := by
  have hopening : joinWith (bytes " => ")
      (if outcome.thrownText = outcome.expr.text then [outcome.expr.text]
        else [outcome.expr.text, outcome.thrownText]) = outcome.opening := by
    unfold opening
    split
    · rfl
    · rw [joinWith_cons_cons, joinWith_singleton, List.append_assoc]
  have hfirst : (if outcome.thrownText = outcome.expr.text then [outcome.expr.text]
      else [outcome.expr.text, outcome.thrownText]) ≠ [] := by
    split <;> exact List.cons_ne_nil _ _
  unfold stages
  dsimp only
  split
  · exact ⟨[], .inl rfl, List.nil_subset _, by rw [hopening, List.append_nil]⟩
  · refine ⟨bytes " => " ++ outcome.lastStep, .inr ⟨_, rfl⟩, ?_, ?_⟩
    · rw [List.append_subset]
      exact ⟨by decide, lastStep_subset outcome⟩
    · rw [joinWith_append_singleton hfirst, hopening]

/-- The trace of a number is its opening, with the last step and the value behind it. -/
theorem trace_eq {outcome : Outcome} (h : outcome.value.isList = false) :
    ∃ tail, Continues tail ∧ tail ⊆ traceBytes ∧ outcome.trace = .ok (outcome.opening ++ tail) := by
  obtain ⟨tail, hcontinues, hbytes, hstages⟩ := joinWith_stages outcome
  unfold trace
  rw [h, if_neg Bool.false_ne_true]
  dsimp only
  rw [hstages]
  split
  · exact ⟨tail, hcontinues, hbytes, rfl⟩
  · have hvalue : Continues (bytes " = " ++ outcome.value.format) := .inr ⟨_, rfl⟩
    refine ⟨tail ++ (bytes " = " ++ outcome.value.format), hcontinues.append hvalue, ?_, ?_⟩
    · rw [List.append_subset, List.append_subset]
      exact ⟨hbytes, by decide, Value.format_subset _⟩
    · rw [List.append_assoc, List.append_assoc]

/-! ## 4. Thrown dice -/

theorem map_ofInt_rollsOf (pool : Pool) (faces : List Int) :
    (pool.rollsOf faces).map (fun roll => Decimal.ofInt roll.value) = faces.map Decimal.ofInt := by
  rw [Pool.rollsOf, List.map_map]
  rfl

theorem formatFaces_append_inj {pool : Pool} {faces faces' : List Int} {rest rest' : Bytes}
    (h : formatFaces (pool.rollsOf faces) ++ rest = formatFaces (pool.rollsOf faces') ++ rest') :
    faces = faces' ∧ rest = rest' := by
  unfold formatFaces at h
  rw [map_ofInt_rollsOf, map_ofInt_rollsOf, List.append_assoc, List.append_assoc,
    List.append_assoc, List.append_assoc] at h
  exact joinWith_append_inj (fun face _ => toldApart_ofInt face)
    (ofInt_append_ne_cons (by decide)) (List.append_cancel_left h)

theorem expr_of_follows {outcome : Outcome} {e : Expr} (h : Follows outcome e) : outcome.expr = e := by
  cases h <;> rfl

theorem isList_value_of_follows {outcome : Outcome} {e : Expr} (h : Follows outcome e) :
    outcome.value.isList = e.yieldsList := by
  cases h <;> rfl

theorem follows_dice_iff {pool : Pool} {outcome : Outcome} :
    Follows outcome (.dice pool) ↔ ∃ faces : List Int, faces.length = pool.count.toNat ∧
      outcome = .node (.dice pool) (.number faces.sum) (pool.rollsOf faces) [] [] := by
  constructor
  · intro h
    cases h with
    | dice hlength => exact ⟨_, hlength, rfl⟩
  · rintro ⟨faces, hlength, rfl⟩
    exact .dice hlength

theorem follows_selected_iff {selector : Selector} {amount : Int} {pool : Pool} {outcome : Outcome}
    (h : Follows outcome (.selected selector amount pool)) :
    ∃ faces : List Int, faces.length = pool.count.toNat ∧ outcome.faces = faces ∧
      outcome.thrownText = formatFaces (pool.rollsOf faces) := by
  cases h with
  | selected hthrown hrolls =>
    obtain ⟨faces, hlength, rfl⟩ := follows_dice_iff.mp hthrown
    refine ⟨faces, hlength, ?_, ?_⟩
    · rw [hrolls]
      exact faces_selected _ _ _ _ _ _ _
    · rw [thrownText, hrolls]
      rfl

/-- An expression without dice is thrown as it stands. -/
theorem thrownText_of_plan_eq_nil {e : Expr} (he : e.WellFormed) (hnumber : e.yieldsList = false)
    {outcome : Outcome} (h : Follows outcome e) (hplan : e.plan = []) :
    outcome.faces = [] ∧ outcome.thrownText = e.text := by
  induction e generalizing outcome with
  | constant value =>
    cases h
    exact ⟨rfl, rfl⟩
  | dice pool =>
    have hpos := he.count_pos
    have hlength := congrArg List.length hplan
    rw [Expr.plan, List.length_replicate, List.length_nil] at hlength
    omega
  | selected selector amount pool =>
    have hpos := he.1.count_pos
    have hlength := congrArg List.length hplan
    rw [Expr.plan, List.length_replicate, List.length_nil] at hlength
    omega
  | binary op left right ihleft ihright =>
    obtain ⟨hleft, hright, hleftNumber, hrightNumber⟩ := he
    rw [Expr.plan, List.append_eq_nil_iff] at hplan
    cases h with
    | @binary _ _ _ a b _ _ _ ha hb =>
      obtain ⟨hfaces, hthrown⟩ := ihleft hleft hleftNumber ha hplan.1
      obtain ⟨hfaces', hthrown'⟩ := ihright hright hrightNumber hb hplan.2
      constructor
      · rw [faces_binary, hfaces, hfaces']
        rfl
      · rw [thrownText, hthrown, hthrown', Expr.text]
  | repeated => exact nomatch hnumber
  | sequence => exact nomatch hnumber

theorem bracket_mem_thrownText {e : Expr} (hnumber : e.yieldsList = false) (he : e.WellFormed)
    {outcome : Outcome} (h : Follows outcome e) (hplan : e.plan ≠ []) :
    ascii '[' ∈ outcome.thrownText := by
  have hfront : ∀ rolls : List Roll, ascii '[' ∈ formatFaces rolls := fun rolls => by
    rw [formatFaces, List.append_assoc]
    exact List.mem_append_left _ (by decide)
  induction e generalizing outcome with
  | constant value => exact absurd rfl hplan
  | dice pool =>
    obtain ⟨faces, hlength, rfl⟩ := follows_dice_iff.mp h
    exact hfront _
  | selected selector amount pool =>
    obtain ⟨faces, -, -, hthrown⟩ := follows_selected_iff h
    rw [hthrown]
    exact hfront _
  | binary op left right ihleft ihright =>
    obtain ⟨hleft, hright, hleftNumber, hrightNumber⟩ := he
    rw [Expr.plan, ne_eq, List.append_eq_nil_iff, not_and_or] at hplan
    cases h with
    | @binary _ _ _ a b _ _ _ ha hb =>
      rw [thrownText]
      simp only [List.mem_append]
      rcases hplan with hplan | hplan
      · have hmem := ihleft hleftNumber hleft ha hplan
        exact .inl (.inl (.inl (.inl (.inl (.inr hmem)))))
      · have hmem := ihright hrightNumber hright hb hplan
        exact .inl (.inr hmem)
  | repeated => exact nomatch hnumber
  | sequence => exact nomatch hnumber

/-- The faces of the dice are told from the thrown text, whatever stands behind it. -/
theorem thrownText_append_inj {e : Expr} (he : e.WellFormed) (hnumber : e.yieldsList = false)
    {outcome outcome' : Outcome} (h : Follows outcome e) (h' : Follows outcome' e)
    {rest rest' : Bytes} (htext : outcome.thrownText ++ rest = outcome'.thrownText ++ rest') :
    outcome.faces = outcome'.faces ∧ rest = rest' := by
  induction e generalizing outcome outcome' rest rest' with
  | constant value =>
    cases h
    cases h'
    exact ⟨rfl, List.append_cancel_left htext⟩
  | dice pool =>
    obtain ⟨faces, -, rfl⟩ := follows_dice_iff.mp h
    obtain ⟨faces', -, rfl⟩ := follows_dice_iff.mp h'
    rw [faces_dice, faces_dice]
    exact formatFaces_append_inj htext
  | selected selector amount pool =>
    obtain ⟨faces, -, hfaces, hthrown⟩ := follows_selected_iff h
    obtain ⟨faces', -, hfaces', hthrown'⟩ := follows_selected_iff h'
    rw [hthrown, hthrown'] at htext
    rw [hfaces, hfaces']
    exact formatFaces_append_inj htext
  | binary op left right ihleft ihright =>
    obtain ⟨hleft, hright, hleftNumber, hrightNumber⟩ := he
    cases h with
    | @binary _ _ _ a b _ _ _ ha hb =>
      cases h' with
      | @binary _ _ _ a' b' _ _ _ ha' hb' =>
        rw [thrownText, thrownText] at htext
        simp only [List.append_assoc] at htext
        obtain ⟨hfaces, hrest⟩ :=
          ihleft hleft hleftNumber ha ha' (List.append_cancel_left htext)
        -- The operator and the blanks around it are the same in both texts.
        have hoperator := List.append_cancel_left (List.append_cancel_left
          (List.append_cancel_left hrest))
        obtain ⟨hfaces', hclose⟩ := ihright hright hrightNumber hb hb' hoperator
        refine ⟨?_, List.append_cancel_left hclose⟩
        rw [faces_binary, faces_binary, hfaces, hfaces']
  | repeated => exact nomatch hnumber
  | sequence => exact nomatch hnumber

/-! ## 5. Traces of one expression -/

variable {e : Expr} {outcome outcome' : Outcome}

theorem opening_subset (outcome : Outcome) : outcome.opening ⊆ traceBytes := by
  have htext := List.Subset.trans (Expr.text_subset outcome.expr) textBytes_subset
  unfold opening
  split
  · exact htext
  · rw [List.append_subset, List.append_subset]
    exact ⟨htext, by decide, outcome.thrownText_subset⟩

/-- A trace is the text of its expression, and what stands behind it tells where the text ends. -/
theorem trace_of_follows (h : Follows outcome e) (hnumber : e.yieldsList = false) :
    ∃ tail, Continues tail ∧ e.text ++ tail ⊆ traceBytes ∧ outcome.trace = .ok (e.text ++ tail) := by
  have hvalue : outcome.value.isList = false := (isList_value_of_follows h).trans hnumber
  obtain ⟨tail, hcontinues, hbytes, htrace⟩ := trace_eq hvalue
  have hopening : ∃ front, Continues front ∧ outcome.opening = e.text ++ front := by
    unfold opening
    rw [expr_of_follows h]
    split
    · exact ⟨[], .inl rfl, (List.append_nil _).symm⟩
    · exact ⟨_, .inr ⟨_, rfl⟩, rfl⟩
  obtain ⟨front, hfront, heq⟩ := hopening
  have hall := List.append_subset.mpr ⟨outcome.opening_subset, hbytes⟩
  rw [heq, List.append_assoc] at hall htrace
  exact ⟨front ++ tail, hfront.append hcontinues, hall, htrace⟩

-- No text has a bracket in it, so the thrown dice are never left out.
theorem opening_of_plan_ne_nil (he : e.WellFormed) (hnumber : e.yieldsList = false)
    (h : Follows outcome e) (hplan : e.plan ≠ []) :
    outcome.opening = e.text ++ (bytes " => " ++ outcome.thrownText) := by
  have hmem := bracket_mem_thrownText hnumber he h hplan
  have hne : outcome.thrownText ≠ outcome.expr.text := by
    intro heq
    rw [heq] at hmem
    exact absurd (Expr.text_subset _ hmem) (by decide)
  rw [opening, if_neg hne, expr_of_follows h]

/-- Two traces of one expression are equal only if the same faces were thrown. -/
theorem faces_eq_of_trace_eq (he : e.WellFormed) (hnumber : e.yieldsList = false)
    (h : Follows outcome e) (h' : Follows outcome' e) (htrace : outcome.trace = outcome'.trace) :
    outcome.faces = outcome'.faces := by
  by_cases hplan : e.plan = []
  · rw [(thrownText_of_plan_eq_nil he hnumber h hplan).1,
      (thrownText_of_plan_eq_nil he hnumber h' hplan).1]
  · obtain ⟨tail, -, -, heq⟩ := trace_eq ((isList_value_of_follows h).trans hnumber)
    obtain ⟨tail', -, -, heq'⟩ := trace_eq ((isList_value_of_follows h').trans hnumber)
    rw [heq, heq', opening_of_plan_ne_nil he hnumber h hplan,
      opening_of_plan_ne_nil he hnumber h' hplan] at htrace
    have hstages := Except.ok.inj htrace
    simp only [List.append_assoc] at hstages
    have hthrown := List.append_cancel_left (List.append_cancel_left hstages)
    exact (thrownText_append_inj he hnumber h h' hthrown).1

/-- The text in front of a trace is determined by the trace. -/
theorem text_eq_of_append_eq {text text' tail tail' : Bytes} (hbytes : text ⊆ textBytes)
    (hbytes' : text' ⊆ textBytes) (htail : Continues tail) (htail' : Continues tail')
    (h : text ++ tail = text' ++ tail') : text = text' := by
  -- What is left of the longer text begins like a tail, but has no equals sign.
  have hrest : ∀ {text rest tail tail' : Bytes}, text ++ rest ⊆ textBytes → Continues tail →
      Continues tail' → tail = rest ++ tail' → rest = [] := by
    intro text rest tail tail' hbytes htail htail' heq
    obtain ⟨-, hrest⟩ := List.append_subset.mp hbytes
    rcases htail with rfl | ⟨others, rfl⟩
    · exact (List.append_eq_nil_iff.mp heq.symm).1
    · match rest, hrest, heq with
      | [], _, _ => rfl
      | [_], _, heq =>
        rcases htail' with rfl | ⟨others', rfl⟩
        · exact nomatch (List.cons.inj heq).2
        · exact absurd (List.cons.inj (List.cons.inj heq).2).1 (by decide)
      | _ :: _ :: _, hrest, heq =>
        have hequals := (List.cons.inj (List.cons.inj heq).2).1
        have hmem := hrest (List.mem_cons_of_mem _ List.mem_cons_self)
        rw [← hequals] at hmem
        exact absurd hmem (by decide)
  rcases List.append_eq_append_iff.mp h with ⟨rest, rfl, heq⟩ | ⟨rest, rfl, heq⟩
  · rw [hrest hbytes' htail htail' heq, List.append_nil]
  · rw [hrest hbytes htail' htail heq, List.append_nil]

end Outcome

end DiceFormula
