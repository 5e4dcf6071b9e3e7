import DiceFormula.Expr.Build
import DiceFormula.Phrase

/-!
# The meaning of a phrase

`Expr.ofPhrase` reads the numbers of a phrase and builds its expression from the inside out, left
part first. Parentheses leave nothing behind, nor do a sequence or a list of one part. Any tree can
be given, whether it was read from a text or not.
-/

namespace DiceFormula.Expr

def readNumber (text : Bytes) : Except MeaningFault Int :=
  match Decimal.read text with
  | .ok value => .ok value
  | .error .malformed => .error (.malformedNumber text)
  | .error .tooLarge => .error (.numberTooLarge text)

/-- A pool written as `[N]dS` or `[N]dF`, in either letter case. -/
def ofRoll (text : Bytes) : Except MeaningFault Expr :=
  let lowered := text.map lower
  let countText := lowered.takeWhile (· != ascii 'd')
  match lowered.dropWhile (· != ascii 'd') with
  | _ :: b :: rest => do
      let count ← if countText.isEmpty then .ok 1 else readNumber countText
      if b :: rest = bytes "f" then Build.fudgeDice count
      else do
        let sides ← readNumber (b :: rest)
        Build.dice count sides
  | _ => .error (.malformedRoll text)

/-- A selection from a pool, written as two letters and an amount. -/
def ofDirective (pool : Expr) (directive : Phrase) : Except MeaningFault Expr :=
  let lowered := directive.text.map lower
  if directive.rule ≠ .directive ∨ lowered.length < 3 then
    .error (.malformedDirective directive.text)
  else
    let letters := lowered.take 2
    match Selector.ofLetters? letters with
    | none => .error (.unknownDirective letters)
    | some selector => do
        let amount ← readNumber (lowered.drop 2)
        Build.selected selector amount (some pool)

/-- A pool with the directives behind it, of which there is at most one. -/
def withDirectives (pool : Expr) : List Phrase → Except MeaningFault Expr
  | [] => .ok pool
  | [directive] => ofDirective pool directive
  | _ :: _ :: _ => .error (.severalDirectives pool.text)

def ofOperation (text : Bytes) (left right : Expr) : Except MeaningFault Expr :=
  match Operator.ofSymbol? text with
  | none => .error (.unknownOperator text)
  | some op => Build.binary op (some left) (some right)

mutual

def ofPhrase : Phrase → Except MeaningFault Expr
  | .node .sequence _ _ [] => .error .emptySequence
  | .node .sequence _ _ [part] => ofPhrase part
  | .node .sequence _ _ (first :: second :: rest) => do
      let a ← ofPhrase first
      let b ← ofPhrase second
      let others ← ofPhrases rest
      Build.sequence ((a :: b :: others).map some)
  | .node .list _ _ [part] => ofPhrase part
  | .node .list _ _ [count, body] =>
      if count.rule ≠ .integer then .error .countNotInteger
      else do
        let n ← readNumber count.text
        let inner ← ofPhrase body
        Build.repeated n (some inner)
  | .node .list _ position _ => .error (.malformedTree position)
  | .node .operation text _ [left, right] => do
      let a ← ofPhrase left
      let b ← ofPhrase right
      ofOperation text a b
  | .node .operation _ position _ => .error (.malformedTree position)
  | .node .group _ _ [part] => ofPhrase part
  | .node .group _ position _ => .error (.malformedTree position)
  | .node .roll text _ directives => do
      let pool ← ofRoll text
      withDirectives pool directives
  | .node .integer text _ _ => do
      let value ← readNumber text
      .ok (Build.constant value)
  | .node .directive text _ _ => .error (.strayDirective text)

def ofPhrases : List Phrase → Except MeaningFault (List Expr)
  | [] => .ok []
  | part :: rest => do
      let a ← ofPhrase part
      let others ← ofPhrases rest
      .ok (a :: others)

end

theorem ofPhrase_list_singleton (text : Bytes) (position : Nat) (part : Phrase) :
    ofPhrase (.node .list text position [part]) = ofPhrase part := by
  rw [ofPhrase]

theorem ofPhrase_sequence_singleton (text : Bytes) (position : Nat) (part : Phrase) :
    ofPhrase (.node .sequence text position [part]) = ofPhrase part := by
  rw [ofPhrase]

theorem ofPhrases_cons (part : Phrase) (parts : List Phrase) :
    ofPhrases (part :: parts) =
      ofPhrase part >>= fun a => ofPhrases parts >>= fun others => .ok (a :: others) := by
  rw [ofPhrases]

end DiceFormula.Expr
