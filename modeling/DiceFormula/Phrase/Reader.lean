import DiceFormula.Fault
import DiceFormula.Phrase
import DiceFormula.Token

/-!
# Reading phrases

`Reader.parse` reads a list of tokens as a sequence of lists, one token at a time and without
looking ahead. What has been read but not yet put together is kept in a `Context`: the operations
that wait for their right operand, the parentheses that are still open, the repetition counts of the
current list and the lists before it.

Operators of one rank group to the left, and `*` and `/` bind closer than `+` and `-`. A number is a
repetition count if blanks and the beginning of an operand follow it. A minus sign belongs to a
number if it stands where an operand is expected and the number follows it without blanks.
-/

namespace DiceFormula.Reader

/-! ## What is still open -/

/-- A left operand and the operator token that follows it. -/
structure Pending where
  left : Phrase
  operator : Token
  deriving Repr

def Pending.apply (pending : Pending) (right : Phrase) : Phrase :=
  .node .operation pending.operator.text pending.operator.position [pending.left, right]

/-- The unfinished chain of operations at one depth of parentheses: at most one sum waits for a term
and at most one product for a factor. -/
structure Chain where
  sum : Option Pending := none
  product : Option Pending := none
  deriving Repr

namespace Chain

def term (chain : Chain) (factor : Phrase) : Phrase :=
  match chain.product with
  | none => factor
  | some pending => pending.apply factor

def total (chain : Chain) (factor : Phrase) : Phrase :=
  match chain.sum with
  | none => chain.term factor
  | some pending => pending.apply (chain.term factor)

end Chain

/-- Everything that has been read and not yet put together. -/
structure Context where
  /-- The position of the first token of all. -/
  start : Nat
  /-- The finished lists, the latest first. -/
  items : List Phrase := []
  /-- The repetition counts of the current list, the latest first. -/
  counts : List Token := []
  /-- The position of the current expression behind its counts. -/
  bodyStart : Nat := 0
  /-- The open parentheses, the latest first, each with the chain that it interrupts. -/
  opened : List (Chain × Token) := []
  chain : Chain := {}
  deriving Repr

inductive Expecting where
  /-- A list, which may begin with a repetition count. -/
  | list
  /-- A number has been read at the beginning of a list. -/
  | afterNumber (number : Token)
  | operand
  /-- A minus sign has been read where an operand is expected. -/
  | afterSign (sign : Token)
  /-- An operand has been read. -/
  | operator (operand : Phrase)
  deriving Repr

structure State where
  expecting : Expecting
  context : Context
  deriving Repr

inductive Step where
  | next (state : State)
  /-- The token is the end mark, and the phrase is complete. -/
  | complete (phrase : Phrase)
  /-- A complaint about the first of the tokens that are given back. -/
  | refuse (complaint : Complaint) (token : Token) (more : List Token)
  deriving Repr

/-! ## Phrases made of tokens -/

def integer (number : Token) : Phrase :=
  .node .integer number.text number.position []

def signedInteger (sign number : Token) : Phrase :=
  .node .integer (ascii '-' :: number.text) sign.position []

def roll (token : Token) : Phrase :=
  .node .roll token.text token.position []

def directive (token : Token) : Phrase :=
  .node .directive token.text token.position []

/-- A phrase with one more part behind the others. -/
def addPart (part : Phrase) : Phrase → Phrase
  | .node rule text position parts => .node rule text position (parts ++ [part])

/-- A list repeated as often as a count says. -/
def repetition (count : Token) (list : Phrase) : Phrase :=
  .node .list count.text count.position [integer count, list]

/-- The current list, whose expression is complete: the latest count is the innermost one. -/
def Context.list (context : Context) (expression : Phrase) : Phrase :=
  context.counts.foldl (fun list count => repetition count list)
    (.node .list [] context.bodyStart [expression])

def Context.sequence (context : Context) (last : Phrase) : Phrase :=
  .node .sequence [] context.start (context.items.reverse ++ [last])

/-! ## One token -/

def unexpected (token : Token) (more : List Token) : Step :=
  match token.kind with
  | .finish => .refuse .unexpectedEnd token more
  | _ => .refuse (.unexpectedToken token.text) token more

def atOperand (context : Context) (token : Token) : Step :=
  match token.kind with
  | .roll => .next ⟨.operator (roll token), context⟩
  | .number => .next ⟨.operator (integer token), context⟩
  | .minus => .next ⟨.afterSign token, context⟩
  | .openParen =>
      .next ⟨.operand, { context with
        opened := (context.chain, token) :: context.opened
        chain := {} }⟩
  | _ => unexpected token []

def atList (context : Context) (token : Token) : Step :=
  let context := { context with bodyStart := token.position }
  match token.kind with
  | .number => .next ⟨.afterNumber token, context⟩
  | _ => atOperand context token

/-- A token behind a whole expression that has no open parenthesis in front. -/
def atListEnd (context : Context) (expression : Phrase) (token : Token) : Step :=
  match token.kind with
  | .comma =>
      .next ⟨.list, { context with
        items := context.list expression :: context.items
        counts := []
        chain := {} }⟩
  | .finish => .complete (context.sequence (context.list expression))
  | _ => .refuse .trailingText token []

def atOperator (context : Context) (operand : Phrase) (token : Token) : Step :=
  match token.kind with
  | .star | .slash =>
      .next ⟨.operand, { context with
        chain := { context.chain with product := some ⟨context.chain.term operand, token⟩ } }⟩
  | .plus | .minus =>
      .next ⟨.operand, { context with
        chain := { sum := some ⟨context.chain.total operand, token⟩ } }⟩
  | kind =>
      if kind = .directive ∧ operand.rule = .roll then
        .next ⟨.operator (addPart (directive token) operand), context⟩
      else
        let expression := context.chain.total operand
        match context.opened with
        | [] => atListEnd context expression token
        | (outer, opening) :: opened =>
            if kind = .closeParen then
              .next ⟨.operator (.node .group [] opening.position [expression]),
                { context with opened := opened, chain := outer }⟩
            else .refuse .unclosedParen token []

/-- A token with which an operand begins, minus signs apart. -/
def beginsOperand (kind : Kind) : Bool :=
  kind = .number || kind = .roll || kind = .openParen

theorem beginsOperand_iff (kind : Kind) :
    beginsOperand kind = true ↔ kind = .number ∨ kind = .roll ∨ kind = .openParen := by
  cases kind <;> decide

/-- A token behind a number at the beginning of a list: the number is a count, or an operand. -/
def afterNumber (context : Context) (number token : Token) : Step :=
  if token.spaced && beginsOperand token.kind then
    atList { context with counts := number :: context.counts } token
  else atOperator context (integer number) token

/-- A token behind a minus sign: the sign is complained about unless a number touches it. -/
def afterSign (context : Context) (sign token : Token) : Step :=
  if token.kind = .number && !token.spaced then
    .next ⟨.operator (signedInteger sign token), context⟩
  else unexpected sign [token]

def step (state : State) (token : Token) : Step :=
  match state.expecting with
  | .list => atList state.context token
  | .afterNumber number => afterNumber state.context number token
  | .operand => atOperand state.context token
  | .afterSign sign => afterSign state.context sign token
  | .operator operand => atOperator state.context operand token

/-! ## All tokens -/

/-- Read from a state on. The tokens that are returned are those not used up: the end mark and what
follows it after a success, and the token complained about and what follows it otherwise. -/
def run : State → List Token → Except ReadingFault Phrase × List Token
  | _, [] => (.error ⟨.unexpectedEnd, 0⟩, [])
  | state, token :: rest =>
      match step state token with
      | .next state => run state rest
      | .complete phrase => (.ok phrase, token :: rest)
      | .refuse complaint culprit more =>
          (.error ⟨complaint, culprit.position⟩, culprit :: more ++ rest)

def State.initial (position : Nat) : State :=
  ⟨.list, { start := position }⟩

/-- Read the tokens up to the end mark as one phrase. -/
def parse (tokens : List Token) : Except ReadingFault Phrase × List Token :=
  let start := match tokens with
    | [] => 0
    | first :: _ => first.position
  run (State.initial start) tokens

end DiceFormula.Reader
