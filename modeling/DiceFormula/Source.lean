import DiceFormula.Fault

/-!
# Sources of draws

Dice are thrown by asking a source for a number of a range. A source answers from a state of its
own, and the state changes also where it refuses.
-/

namespace DiceFormula

/-- A source of draws with states of type `σ` and faults of type `ε`: it is asked for a number from
`lower` to `upper`. -/
structure Source (σ : Type) (ε : Type := SourceFault) where
  draw : (lower upper : Int) → σ → Except ε Int × σ

abbrev Range := Int × Int

/-- A computation that may draw numbers and may fail. What was drawn before a failure stays
drawn. -/
abbrev Rolling (σ ε : Type) := EStateM (Fault ε) σ

namespace Rolling

variable {σ ε α : Type}

/-- An outcome that needs no draw. -/
def ofExcept (outcome : Except OwnFault α) : Rolling σ ε α := fun state =>
  match outcome with
  | .ok a => .ok a state
  | .error fault => .error (.ofOwn fault) state

def draw (source : Source σ ε) (lower upper : Int) : Rolling σ ε Int := fun state =>
  match source.draw lower upper state with
  | (.ok value, state) => .ok value state
  | (.error fault, state) => .error (.source fault) state

def runFrom (computation : Rolling σ ε α) (state : σ) : Except (Fault ε) α × σ :=
  match computation state with
  | .ok a state => (.ok a, state)
  | .error fault state => (.error fault, state)

/-! The outcome of each kind of computation. -/

@[simp] theorem runFrom_pure (a : α) (state : σ) :
    (pure a : Rolling σ ε α).runFrom state = (.ok a, state) := rfl

@[simp] theorem runFrom_ofExcept (outcome : Except OwnFault α) (state : σ) :
    (ofExcept outcome : Rolling σ ε α).runFrom state = (outcome.mapError .ofOwn, state) := by
  cases outcome <;> rfl

theorem runFrom_draw (source : Source σ ε) (lower upper : Int) (state : σ) :
    (draw source lower upper).runFrom state =
      ((source.draw lower upper state).1.mapError .source, (source.draw lower upper state).2) := by
  unfold runFrom draw
  cases h : source.draw lower upper state with
  | mk answer next => cases answer <;> rfl

theorem runFrom_bind {β : Type} (first : Rolling σ ε α) (next : α → Rolling σ ε β) (state : σ) :
    (first >>= next).runFrom state =
      match first.runFrom state with
      | (.ok a, state) => (next a).runFrom state
      | (.error fault, state) => (.error fault, state) := by
  show (match EStateM.bind first next state with
    | .ok b state => (Except.ok b, state)
    | .error fault state => (.error fault, state)) = _
  unfold EStateM.bind runFrom
  cases first state <;> rfl

end Rolling

namespace Source

variable {σ ε : Type}

/-- The same source, with its faults put differently. -/
def mapFault {δ : Type} (f : ε → δ) (source : Source σ ε) : Source σ δ where
  draw lower upper state :=
    let (answer, state) := source.draw lower upper state
    (answer.mapError f, state)

/-- The same source, which also keeps the ranges of all draws it answered, the latest first. -/
def logged (source : Source σ ε) : Source (σ × List Range) ε where
  draw lower upper := fun (state, log) =>
    match source.draw lower upper state with
    | (.ok value, state) => (.ok value, state, (lower, upper) :: log)
    | (.error fault, state) => (.error fault, state, log)

def either {τ : Type} (left : Source σ ε) (right : Source τ ε) : Source (σ ⊕ τ) ε where
  draw lower upper
    | .inl state =>
        let (answer, state) := left.draw lower upper state
        (answer, .inl state)
    | .inr state =>
        let (answer, state) := right.draw lower upper state
        (answer, .inr state)

/-- Answers with the numbers of a list, whatever the range. -/
def scripted : Source (List Int) where
  draw _ _
    | [] => (.error .exhausted, [])
    | value :: rest => (.ok value, rest)

/-- A list of numbers, and what is left of the current round through it. -/
structure Cycle where
  all : List Int
  left : List Int := all
  deriving Repr

/-- Answers with the numbers of a list over and over again, whatever the range. -/
def cyclic : Source Cycle where
  draw _ _ cycle :=
    match cycle.left, cycle.all with
    | value :: rest, _ => (.ok value, { cycle with left := rest })
    | [], value :: rest => (.ok value, { cycle with left := rest })
    | [], [] => (.error .exhausted, cycle)

def least : Source Unit where
  draw lower _ state := (.ok lower, state)

def greatest : Source Unit where
  draw _ upper state := (.ok upper, state)

end Source

end DiceFormula
