import DiceFormula.Outcome.Mirrors
import DiceFormula.Proofs.Evaluation
import DiceFormula.Proofs.Parts
import DiceFormula.Proofs.Traces

/-!
# Outcomes mirror their expressions

An outcome that follows an expression has children that follow its parts, so that every node is
reached together with the part that it mirrors.
-/

namespace DiceFormula

variable {e : Expr} {outcome : Outcome}

/-! ## 1. Paths -/

section Paths

variable {α β γ δ : Type} {related : α → β → Prop} {x : Option α} {y : Option β}

theorem rel_imp {related' : α → β → Prop} (h : Option.Rel related x y)
    (himp : ∀ a b, related a b → related' a b) : Option.Rel related' x y := by
  cases h with
  | none => exact .none
  | some hab => exact .some (himp _ _ hab)

theorem rel_bind {related' : γ → δ → Prop} {f : α → Option γ} {g : β → Option δ}
    (h : Option.Rel related x y) (hnext : ∀ a b, related a b → Option.Rel related' (f a) (g b)) :
    Option.Rel related' (x.bind f) (y.bind g) := by
  cases h with
  | none => exact .none
  | some hab => exact hnext _ _ hab

end Paths

/-! ## 2. Nodes -/

namespace Outcome

theorem allFollow_children (h : Follows outcome e) : AllFollow outcome.children e.parts := by
  cases h with
  | constant | dice => exact .nil
  | selected hthrown => exact .cons hthrown .nil
  | binary hleft hright => exact .cons hleft (.cons hright .nil)
  | repeated hall => exact hall
  | sequence hall => exact hall

theorem map_expr_of_allFollow {outcomes : List Outcome} {items : List Expr}
    (h : AllFollow outcomes items) : outcomes.map Outcome.expr = items := by
  induction items generalizing outcomes with
  | nil =>
    cases h
    rfl
  | cons item items ih =>
    cases h with
    | cons hitem hitems => rw [List.map_cons, expr_of_follows hitem, ih hitems]

theorem getElem?_of_allFollow {outcomes : List Outcome} {items : List Expr}
    (h : AllFollow outcomes items) (index : Nat) :
    Option.Rel (fun outcome item => item ∈ items ∧ Follows outcome item) outcomes[index]?
      items[index]? := by
  induction items generalizing outcomes index with
  | nil =>
    cases h
    exact .none
  | cons item items ih =>
    cases h with
    | cons hitem hitems =>
      cases index with
      | zero => exact .some ⟨List.mem_cons_self, hitem⟩
      | succ index =>
        apply rel_imp (ih hitems index)
        rintro outcome other ⟨hmem, hother⟩
        exact ⟨List.mem_cons_of_mem item hmem, hother⟩

theorem holds_of_follows (he : e.WellFormed) (h : Follows outcome e) : outcome.Holds e := by
  cases h with
  | constant => exact ⟨rfl, rfl, rfl⟩
  | @dice pool faces hlength =>
    have hpos := Pool.WellFormed.count_pos he
    have hcount : ((pool.rollsOf faces).length : Int) = pool.count := by
      rw [Pool.rollsOf, List.length_map, hlength]
      omega
    have hsides : ∀ roll ∈ pool.rollsOf faces, roll.sides = pool.sides := by
      intro roll hroll
      obtain ⟨face, -, rfl⟩ := List.mem_map.mp hroll
      rfl
    refine ⟨hcount, hsides, rfl, ?_⟩
    show Value.number faces.sum = .number ((pool.rollsOf faces).map (·.value)).sum
    rw [map_value_rollsOf]
  | selected _ hrolls hlength hcount =>
    refine ⟨?_, hlength, hcount, rfl⟩
    exact congrArg (fun rolls => [rolls]) hrolls.symm
  | @binary _ _ _ a b x y result _ _ hx hy hexact =>
    refine ⟨⟨x, y, result, ?_, hexact, rfl⟩, rfl, rfl⟩
    show [a.value, b.value] = _
    rw [hx, hy]
  | repeated => exact ⟨rfl, rfl, rfl⟩
  | sequence => exact ⟨rfl, rfl, rfl⟩

theorem mirrors_of_follows (he : e.WellFormed) (h : Follows outcome e) : outcome.Mirrors e where
  expr_eq := expr_of_follows h
  isList_value := isList_value_of_follows h
  map_expr_children := map_expr_of_allFollow (allFollow_children h)
  holds := holds_of_follows he h

/-- A path leads to a node of the outcome if and only if it leads to a part of the expression, and
then the node mirrors the part. -/
theorem at?_of_follows (he : e.WellFormed) (h : Follows outcome e) (path : List Nat) :
    Option.Rel Mirrors (outcome.at? path) (e.at? path) := by
  induction path generalizing outcome e with
  | nil => exact .some (mirrors_of_follows he h)
  | cons index path ih =>
    rw [at?, Expr.at?_cons]
    apply rel_bind (getElem?_of_allFollow (allFollow_children h) index)
    rintro child part ⟨hpart, hchild⟩
    exact ih (Expr.wellFormed_of_mem_parts he hpart) hchild

end Outcome

/-! ## 3. Evaluations -/

variable {σ ε : Type} {source : Source σ ε} {state later : σ}

/-- A successful evaluation of an expression gives an outcome with a node for every part, at the
same path and nowhere else, and every node mirrors its part. -/
theorem evaluate_mirrors (he : e.IsBuilt)
    (h : (evaluate source e).runFrom state = (.ok outcome, later)) (path : List Nat) :
    Option.Rel Outcome.Mirrors (outcome.at? path) (e.at? path) := by
  have hfit := Expr.wellFormed_of_isBuilt he
  exact Outcome.at?_of_follows hfit (isDrawn_of_evaluate hfit h).2 path

-- The higher of two dice, lowered by three, twice; then a fudge die.
def loweredTwice : Expr :=
  .sequence [
    .repeated 2 (.binary .sub (.selected .keepHighest 1 { count := 2, sides := 6 }) (.constant 3)),
    .dice { count := 1, sides := 3, kind := .fudge }]

/-- The path of the second selection: the first item, its second evaluation, the left operand. -/
theorem mirrors_loweredTwice :
    ∃ outcome later, loweredTwice.IsBuilt ∧
      (evaluate Source.scripted loweredTwice).runFrom [2, 5, 1, 4, -1] = (.ok outcome, later) ∧
      Option.Rel Outcome.Mirrors (outcome.at? [0, 1, 0])
        (some (.selected .keepHighest 1 { count := 2, sides := 6 })) := by
  have hbuilt : loweredTwice.IsBuilt := Expr.isBuilt_of_wellFormed (by decide)
  obtain ⟨outcome, later, hrun⟩ : ∃ outcome later,
      (evaluate Source.scripted loweredTwice).runFrom [2, 5, 1, 4, -1] = (.ok outcome, later) := by
    refine ⟨?outcome, ?later, ?run⟩
    case run =>
      cbv
      rfl
  exact ⟨outcome, later, hbuilt, hrun, evaluate_mirrors hbuilt hrun [0, 1, 0]⟩

end DiceFormula
