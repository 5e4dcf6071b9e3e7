import DiceFormula.Expr.OfPhrase
import DiceFormula.Outcome.Evaluation
import DiceFormula.Phrase.Reader
import DiceFormula.Token.Lexer

/-!
# Rolling a formula

The way of a formula from its text to an outcome. All limits are checked before the first die is
thrown.
-/

namespace DiceFormula

def tokensOf (text : Bytes) : Except ReadingFault (List Token) :=
  (Lexer.scan 0 text).1

def readPhrase (text : Bytes) : Except ReadingFault Phrase := do
  let tokens ← tokensOf text
  (Reader.parse tokens).1

/-- The expression that a text means. -/
def compile (text : Bytes) : Except OwnFault Expr := do
  let phrase ← (readPhrase text).mapError .reading
  (Expr.ofPhrase phrase).mapError .meaning

def roll {σ ε : Type} (source : Source σ ε) (text : Bytes) : Rolling σ ε Outcome := do
  let expr ← Rolling.ofExcept (compile text)
  evaluate source expr

end DiceFormula
