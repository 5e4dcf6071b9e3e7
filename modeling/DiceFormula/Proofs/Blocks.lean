import DiceFormula.Outcome.Blocks
import DiceFormula.Proofs.Mirrors
import DiceFormula.Proofs.Report

/-!
# Blocks nest by indentation

The lines of a report and their depths below its own depth do not depend on that depth. So a report
at some depth is the report at no depth, indented, and the block of a list holds the reports of its
parts.
-/

namespace DiceFormula

/-! ## 1. Lines -/

theorem indentFrom_line {text : Bytes} (h : ascii '\n' ∉ text) (blanks : Nat) (begins : Bool)
    (rest : Bytes) :
    indentFrom blanks begins (text ++ ascii '\n' :: rest) =
      (if begins then List.replicate blanks (ascii ' ') else []) ++
        (text ++ ascii '\n' :: indent blanks rest) := by
  induction text generalizing begins with
  | nil => rfl
  | cons b text ih =>
    rw [List.mem_cons, not_or] at h
    obtain ⟨hb, htext⟩ := h
    have hinside : (b == ascii '\n') = false := beq_false_of_ne (Ne.symm hb)
    rw [List.cons_append, indentFrom, hinside, ih htext false]
    rfl

theorem Expr.text_ne_nil {e : Expr} (hnumber : e.yieldsList = false) : e.text ≠ [] := by
  cases e with
  | constant value => exact Decimal.ofInt_ne_nil value
  | dice pool => simp [text, Pool.text, Decimal.ofInt_ne_nil]
  | selected => simp [text, Decimal.ofInt_ne_nil]
  | binary => simp [text, bytes]
  | repeated => exact Bool.noConfusion hnumber
  | sequence => exact Bool.noConfusion hnumber

namespace Outcome

theorem line_zero (text : Bytes) : line 0 text = text ++ bytes "\n" := rfl

theorem line_one (text : Bytes) : line 1 text = bytes "  " ++ text ++ bytes "\n" := rfl

theorem line_eq (depth : Nat) (text : Bytes) :
    line depth text = (List.replicate (2 * depth) (ascii ' ') ++ text) ++ [ascii '\n'] := rfl

theorem newline_notMem_blanks (depth : Nat) {text : Bytes} (h : ascii '\n' ∉ text) :
    ascii '\n' ∉ List.replicate (2 * depth) (ascii ' ') ++ text := by
  have hblanks : ascii '\n' ∉ List.replicate (2 * depth) (ascii ' ') := by
    intro hmem
    exact absurd (List.eq_of_mem_replicate hmem) (by decide)
  rw [List.mem_append, not_or]
  exact ⟨hblanks, h⟩

/-- Blanks in front of a line put it deeper. -/
theorem indent_line {text : Bytes} (h : ascii '\n' ∉ text) (depth more : Nat) (rest : Bytes) :
    indent (2 * more) (line depth text ++ rest) =
      line (depth + more) text ++ indent (2 * more) rest := by
  have hdepth : 2 * (depth + more) = 2 * more + 2 * depth := by omega
  rw [line_eq, line_eq, hdepth, ← List.replicate_append_replicate, List.append_assoc _ _ rest]
  rw [indent, List.singleton_append, indentFrom_line (newline_notMem_blanks depth h)]
  simp only [if_true, List.append_assoc, List.singleton_append]

/-! ## 2. Rows -/

/-- Lines, each with its depth below a common depth. -/
def laid (depth : Nat) (rows : List (Nat × Bytes)) : Bytes :=
  rows.flatMap fun row => line (depth + row.1) row.2

/-- Each row has a text, and that is one line. -/
def AreRows (rows : List (Nat × Bytes)) : Prop :=
  ∀ row ∈ rows, row.2 ≠ [] ∧ ascii '\n' ∉ row.2

variable {rows : List (Nat × Bytes)}

theorem laid_cons (depth : Nat) (row : Nat × Bytes) (rows : List (Nat × Bytes)) :
    laid depth (row :: rows) = line (depth + row.1) row.2 ++ laid depth rows :=
  List.flatMap_cons

theorem laid_append (depth : Nat) (rows others : List (Nat × Bytes)) :
    laid depth (rows ++ others) = laid depth rows ++ laid depth others :=
  List.flatMap_append

theorem indent_laid (h : AreRows rows) (depth more : Nat) :
    indent (2 * more) (laid depth rows) = laid (depth + more) rows := by
  induction rows with
  | nil => rfl
  | cons row rows ih =>
    obtain ⟨hrow, hrows⟩ := List.forall_mem_cons.mp h
    have hdepth : depth + row.1 + more = depth + more + row.1 := by omega
    rw [laid_cons, indent_line hrow.2, ih hrows, hdepth, laid_cons]

theorem isLined_laid (h : AreRows rows) (depth : Nat) : IsLined (laid depth rows) := by
  refine ⟨rows.map fun row => List.replicate (2 * (depth + row.1)) (ascii ' ') ++ row.2, ?_, ?_⟩
  · rw [List.forall_mem_map]
    intro row hrow
    obtain ⟨htext, hline⟩ := h row hrow
    exact ⟨List.append_ne_nil_of_right_ne_nil _ htext, newline_notMem_blanks _ hline⟩
  · rw [List.flatMap_map]
    rfl

theorem laid_deeper (depth more : Nat) (rows : List (Nat × Bytes)) :
    laid (depth + more) rows = laid depth (rows.map fun row => (row.1 + more, row.2)) := by
  rw [laid, laid, List.flatMap_map]
  congr 1
  funext row
  rw [Nat.add_assoc, Nat.add_comm more]

/-- The rows of a report, which are the same at every depth. -/
def HasRows (outcome : Outcome) : Prop :=
  ∃ rows, AreRows rows ∧ ∀ depth, reportAt depth outcome = .ok (laid depth rows)

variable {e : Expr} {outcome : Outcome}

theorem hasRows_number (h : Follows outcome e) (hnumber : e.yieldsList = false) : HasRows outcome := by
  obtain ⟨tail, -, hbytes, htrace⟩ := trace_of_follows h hnumber
  refine ⟨[(0, e.text ++ tail)], ?_, fun depth => ?_⟩
  · rw [AreRows, List.forall_mem_singleton]
    exact ⟨List.append_ne_nil_of_left_ne_nil (Expr.text_ne_nil hnumber) _,
      newline_notMem_of_subset hbytes⟩
  · rw [reportAt_of_trace h hnumber htrace, laid_cons]
    exact congrArg Except.ok (List.append_nil _).symm

theorem areRows_cons (depth : Nat) {text : Bytes} (htext : text ≠ []) (hline : ascii '\n' ∉ text)
    (h : AreRows rows) : AreRows ((depth, text) :: rows) :=
  List.forall_mem_cons.mpr ⟨⟨htext, hline⟩, h⟩

theorem hasRows_parts {items : List Expr} {children : List Outcome} (h : AllFollow children items)
    (hitems : ∀ item ∈ items, ∀ {outcome : Outcome}, Follows outcome item → HasRows outcome)
    (index : Nat) :
    ∃ rows, AreRows rows ∧ ∀ depth, reportParts depth index children = .ok (laid depth rows) := by
  induction items generalizing children index with
  | nil =>
    cases h
    exact ⟨[], fun row hrow => (nomatch hrow), fun depth => rfl⟩
  | cons item items ih =>
    cases h with
    | cons hchild hchildren =>
      obtain ⟨hitem, hitems⟩ := List.forall_mem_cons.mp hitems
      obtain ⟨first, hfirst, hreport⟩ := hitem hchild
      obtain ⟨others, hothers, hreports⟩ := ih hchildren hitems (index + 1)
      have hnumber : ascii '\n' ∉ Decimal.ofNat index ++ bytes ": " := by
        rw [List.mem_append, not_or]
        exact ⟨fun hmem => absurd (Decimal.isDigit_of_mem_ofNat _ hmem) (by decide), by decide⟩
      -- The rows of a child are two levels deeper than the number in front of them.
      have hdeeper : AreRows (first.map fun row => (row.1 + 2, row.2)) := by
        rw [AreRows, List.forall_mem_map]
        exact hfirst
      refine ⟨(1, Decimal.ofNat index ++ bytes ": ") ::
        (first.map (fun row => (row.1 + 2, row.2)) ++ others), ?_, fun depth => ?_⟩
      · refine areRows_cons 1 ?_ hnumber (List.forall_mem_append.mpr ⟨hdeeper, hothers⟩)
        exact List.append_ne_nil_of_left_ne_nil (Decimal.ofNat_ne_nil index) _
      · rw [reportParts, hreport, hreports, laid_deeper, laid_cons, laid_append, ← List.append_assoc]
        rfl

/-- The rows of a list in front of its results. -/
def titleRows (e : Expr) : List (Nat × Bytes) :=
  match e with
  | .repeated count body =>
      [(0, bytes "List Expansion: " ++ e.text),
        (1, bytes "Count: " ++ Decimal.ofInt count ++ bytes " => " ++ Decimal.ofInt count),
        (1, bytes "Expression: " ++ body.text)]
  | .sequence _ => [(0, bytes "Sequence: " ++ e.text)]
  | _ => []

theorem laid_titleRows (e : Expr) : laid 0 (titleRows e) = title e := by
  have hcount : bytes "\n  Count: " = bytes "\n" ++ bytes "  " ++ bytes "Count: " := by
    simp only [← bytes_append, String.reduceAppend]
  have hbody : bytes "\n  Expression: " = bytes "\n" ++ bytes "  " ++ bytes "Expression: " := by
    simp only [← bytes_append, String.reduceAppend]
  cases e with
  | repeated | sequence => simp [laid, titleRows, title, line_zero, line_one, hcount, hbody]
  | _ => rfl

theorem areRows_titleRows (e : Expr) : AreRows (titleRows e) := by
  have htext (e : Expr) : ascii '\n' ∉ e.text :=
    newline_notMem_of_subset (List.Subset.trans e.text_subset textBytes_subset)
  have hcount (count : Int) : ascii '\n' ∉ Decimal.ofInt count :=
    newline_notMem_of_subset (List.Subset.trans (ofInt_subset count) textBytes_subset)
  have hlabel (label : Bytes) {text : Bytes} (hlabel : label ≠ [] ∧ ascii '\n' ∉ label)
      (htext : ascii '\n' ∉ text) : label ++ text ≠ [] ∧ ascii '\n' ∉ label ++ text := by
    rw [List.mem_append, not_or]
    exact ⟨List.append_ne_nil_of_left_ne_nil hlabel.1 _, hlabel.2, htext⟩
  have hempty : AreRows [] := fun row hrow => nomatch hrow
  cases e with
  | repeated count body =>
    refine List.forall_mem_cons.mpr ⟨hlabel _ (by decide) (htext _), ?_⟩
    have hfirst := hlabel (bytes "Count: ") (by decide) (hcount count)
    have harrow := hlabel _ hfirst (by decide : ascii '\n' ∉ bytes " => ")
    refine List.forall_mem_cons.mpr ⟨hlabel _ harrow (hcount count), ?_⟩
    exact List.forall_mem_cons.mpr ⟨hlabel _ (by decide) (htext body), hempty⟩
  | sequence items => exact List.forall_mem_cons.mpr ⟨hlabel _ (by decide) (htext _), hempty⟩
  | _ => exact hempty

/-- A list is reported by its rows and the reports of its parts. -/
theorem reportAt_list (hlist : outcome.expr.yieldsList = true) (depth : Nat) :
    reportAt depth outcome = (reportParts depth 0 outcome.children).map fun blocks =>
      laid depth (titleRows outcome.expr) ++
        line (depth + 1) (bytes "Results: " ++ outcome.value.format) ++ blocks := by
  obtain ⟨expr, value, rolls, kept, children⟩ := outcome
  simp only [Outcome.expr, Outcome.value, Outcome.children]
  cases expr with
  | repeated | sequence =>
    rw [reportAt]
    cases reportParts depth 0 children with
    | error fault => rfl
    | ok blocks => simp [laid, titleRows, Except.map, bind, Except.bind]
  | _ => exact Bool.noConfusion hlist

theorem hasRows_list {items : List Expr} (hlist : outcome.expr.yieldsList = true)
    (hall : AllFollow outcome.children items)
    (hitems : ∀ item ∈ items, ∀ {outcome : Outcome}, Follows outcome item → HasRows outcome) :
    HasRows outcome := by
  obtain ⟨rows, hrows, hparts⟩ := hasRows_parts hall hitems 0
  refine ⟨titleRows outcome.expr ++ (1, bytes "Results: " ++ outcome.value.format) :: rows,
    ?_, fun depth => ?_⟩
  · have hresults := areRows_cons 1 (by simp [bytes]) (newline_notMem_results outcome.value) hrows
    exact List.forall_mem_append.mpr ⟨areRows_titleRows _, hresults⟩
  · rw [reportAt_list hlist, hparts, laid_append, laid_cons, ← List.append_assoc]
    rfl

/-- Every report consists of rows. -/
theorem hasRows_of_follows (h : Follows outcome e) : HasRows outcome := by
  induction e generalizing outcome with
  | constant | dice | selected | binary => exact hasRows_number h rfl
  | repeated count body ih =>
    have hcopies : ∀ item ∈ List.replicate count.toNat body, ∀ {outcome : Outcome},
        Follows outcome item → HasRows outcome :=
      List.forall_mem_replicate.mpr (.inr ih)
    have hlist : outcome.expr.yieldsList = true := congrArg Expr.yieldsList (expr_of_follows h)
    exact hasRows_list hlist (allFollow_children h) hcopies
  | sequence items ih =>
    have hlist : outcome.expr.yieldsList = true := congrArg Expr.yieldsList (expr_of_follows h)
    exact hasRows_list hlist (allFollow_children h) ih

/-! ## 3. Blocks -/

theorem reportAt_indent (h : HasRows outcome) :
    ∃ text, outcome.report = .ok text ∧ IsLined text ∧
      ∀ depth, reportAt depth outcome = .ok (indent (2 * depth) text) := by
  obtain ⟨rows, hrows, hreport⟩ := h
  refine ⟨laid 0 rows, hreport 0, isLined_laid hrows 0, fun depth => ?_⟩
  rw [hreport, indent_laid hrows, Nat.zero_add]

theorem reportParts_numbered {items : List Expr} {children : List Outcome}
    (h : AllFollow children items) (index : Nat) :
    ∃ parts, children.map report = parts.map .ok ∧
      reportParts 0 index children = .ok (numbered index parts) := by
  induction items generalizing children index with
  | nil =>
    cases h
    exact ⟨[], rfl, rfl⟩
  | cons item items ih =>
    cases h with
    | cons hchild hchildren =>
      obtain ⟨part, hpart, -, hdeeper⟩ := reportAt_indent (hasRows_of_follows hchild)
      obtain ⟨parts, hparts, hblocks⟩ := ih hchildren (index + 1)
      have hcolon : bytes ": \n" = bytes ": " ++ bytes "\n" := rfl
      refine ⟨part :: parts, by rw [List.map_cons, List.map_cons, hpart, hparts], ?_⟩
      rw [reportParts, hdeeper, hblocks, numbered, hcolon, ← List.append_assoc (bytes "  " ++ _)]
      rw [List.append_assoc (bytes "  "), ← line_one]
      rfl

theorem follows_of_at? (h : Follows outcome e) {path : List Nat} {node : Outcome}
    (hnode : outcome.at? path = some node) : ∃ part, Follows node part := by
  induction path generalizing outcome e with
  | nil =>
    obtain rfl := Option.some.inj hnode
    exact ⟨e, h⟩
  | cons index path ih =>
    obtain ⟨child, hchild, hnode⟩ := Option.bind_eq_some_iff.mp hnode
    have hpart := getElem?_of_allFollow (allFollow_children h) index
    rw [hchild] at hpart
    generalize e.parts[index]? = part at hpart
    cases hpart with
    | some hpart => exact ih hpart.2 hnode

end Outcome

variable {σ ε : Type} {source : Source σ ε} {state later : σ}

/-- Every node of a successful evaluation has a report of lines, none of them empty, and at a depth
the same report is indented. The report of a list consists of its title, its results and the reports
of its parts in their order, each behind its number and indented by four blanks. -/
theorem report_nests {e : Expr} {outcome : Outcome} (he : e.IsBuilt)
    (h : (evaluate source e).runFrom state = (.ok outcome, later)) {path : List Nat} {node : Outcome}
    (hnode : outcome.at? path = some node) :
    ∃ text, node.report = .ok text ∧ IsLined text ∧
      (∀ depth, node.reportAt depth = .ok (indent (2 * depth) text)) ∧
      (node.expr.yieldsList = true → ∃ parts, node.children.map Outcome.report = parts.map .ok ∧
        text = Outcome.title node.expr ++
          bytes "  Results: " ++ node.value.format ++ bytes "\n" ++ Outcome.numbered 0 parts) := by
  obtain ⟨part, hfollows⟩ :=
    Outcome.follows_of_at? (isDrawn_of_evaluate (Expr.wellFormed_of_isBuilt he) h).2 hnode
  obtain ⟨text, hreport, hlined, hdeeper⟩ :=
    Outcome.reportAt_indent (Outcome.hasRows_of_follows hfollows)
  refine ⟨text, hreport, hlined, hdeeper, fun hlist => ?_⟩
  obtain ⟨parts, hparts, hblocks⟩ :=
    Outcome.reportParts_numbered (Outcome.allFollow_children hfollows) 0
  refine ⟨parts, hparts, ?_⟩
  have hresults : bytes "  Results: " = bytes "  " ++ bytes "Results: " := rfl
  rw [Outcome.report, Outcome.reportAt_list hlist, hblocks, Outcome.laid_titleRows, Outcome.line_one]
    at hreport
  rw [← Except.ok.inj hreport, hresults]
  simp only [List.append_assoc]

/-- Two throws of two dice as the first item of a sequence. -/
def pairsFirst : Expr :=
  .sequence [.repeated 2 (.dice { count := 2, sides := 6 }), .constant (-1)]

/-- The block of the first item, which is itself a list, alone and at the depth where it stands. -/
theorem report_nests_pairsFirst :
    let text := bytes "List Expansion: 2 2d6\n  Count: 2 => 2\n  Expression: 2d6\n" ++
      bytes "  Results: [7, 7]\n  0: \n    2d6 => [3, 4] => 3 + 4 = 7\n" ++
      bytes "  1: \n    2d6 => [1, 6] => 1 + 6 = 7\n"
    let deeper := bytes "    List Expansion: 2 2d6\n      Count: 2 => 2\n" ++
      bytes "      Expression: 2d6\n      Results: [7, 7]\n" ++
      bytes "      0: \n        2d6 => [3, 4] => 3 + 4 = 7\n" ++
      bytes "      1: \n        2d6 => [1, 6] => 1 + 6 = 7\n"
    let parts := [bytes "2d6 => [3, 4] => 3 + 4 = 7\n", bytes "2d6 => [1, 6] => 1 + 6 = 7\n"]
    ∃ outcome node later, pairsFirst.IsBuilt ∧
      (evaluate Source.scripted pairsFirst).runFrom [3, 4, 1, 6] = (.ok outcome, later) ∧
      outcome.at? [0] = some node ∧ node.expr.yieldsList = true ∧
      node.report = .ok text ∧ IsLined text ∧ node.reportAt 2 = .ok deeper ∧
      node.children.map Outcome.report = parts.map .ok ∧
      text = Outcome.title node.expr ++
        bytes "  Results: " ++ node.value.format ++ bytes "\n" ++ Outcome.numbered 0 parts := by
  intro text deeper parts
  have hbuilt : pairsFirst.IsBuilt := Expr.isBuilt_of_wellFormed (by decide)
  have hindent : indent 4 text = deeper := by decide +kernel
  obtain ⟨outcome, node, later, hrun, hnode, hlist, hreport, hchildren⟩ : ∃ outcome node later,
      (evaluate Source.scripted pairsFirst).runFrom [3, 4, 1, 6] = (.ok outcome, later) ∧
        outcome.at? [0] = some node ∧ node.expr.yieldsList = true ∧ node.report = .ok text ∧
        node.children.map Outcome.report = parts.map .ok := by
    refine ⟨?outcome, ?node, ?later, ?run, ?found, ?list, ?report, ?children⟩
    case run =>
      cbv
      rfl
    case found => rfl
    case list => rfl
    case report => cbv
    case children => cbv
  obtain ⟨text', htext, hlined, hdeeper, hparts⟩ := report_nests hbuilt hrun hnode
  obtain rfl := Except.ok.inj (htext.symm.trans hreport)
  obtain ⟨parts', hparts, hblock⟩ := hparts hlist
  obtain rfl : parts' = parts :=
    List.map_injective_iff.mpr (fun _ _ => Except.ok.inj) (hparts.symm.trans hchildren)
  exact ⟨outcome, node, later, hbuilt, hrun, hnode, hlist, hreport, hlined,
    (hdeeper 2).trans (congrArg Except.ok hindent), hchildren, hblock⟩

end DiceFormula
