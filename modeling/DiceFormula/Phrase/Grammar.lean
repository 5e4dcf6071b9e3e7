import DiceFormula.Phrase
import DiceFormula.Token

/-!
# The grammar of formulas

Which lists of tokens, end mark apart, are sums, terms, factors, lists and sequences, and which
phrase each of them is. The relations say nothing about how a phrase is found.
-/

namespace DiceFormula.Grammar

def operation (operator : Token) (left right : Phrase) : Phrase :=
  .node .operation operator.text operator.position [left, right]

mutual

/-- A roll with its directives, a number, a number behind a minus sign that touches it, or a sum in
parentheses. -/
inductive IsFactor : List Token → Phrase → Prop where
  | roll {first : Token} {directives : List Token} : first.kind = .roll →
      (∀ d ∈ directives, d.kind = .directive) →
      IsFactor (first :: directives)
        (.node .roll first.text first.position
          (directives.map fun d => .node .directive d.text d.position []))
  | number {number : Token} : number.kind = .number →
      IsFactor [number] (.node .integer number.text number.position [])
  | signed {sign number : Token} : sign.kind = .minus → number.kind = .number →
      number.spaced = false →
      IsFactor [sign, number] (.node .integer (ascii '-' :: number.text) sign.position [])
  | group {opening closing : Token} {tokens : List Token} {inner : Phrase} :
      opening.kind = .openParen → closing.kind = .closeParen → IsSum tokens inner →
      IsFactor (opening :: (tokens ++ [closing])) (.node .group [] opening.position [inner])

/-- Factors with `*` and `/` between them, grouped to the left. -/
inductive IsTerm : List Token → Phrase → Prop where
  | factor {tokens : List Token} {phrase : Phrase} : IsFactor tokens phrase → IsTerm tokens phrase
  | product {left right : List Token} {operator : Token} {a b : Phrase} :
      IsTerm left a → (operator.kind = .star ∨ operator.kind = .slash) → IsFactor right b →
      IsTerm (left ++ operator :: right) (operation operator a b)

/-- Terms with `+` and `-` between them, grouped to the left. -/
inductive IsSum : List Token → Phrase → Prop where
  | term {tokens : List Token} {phrase : Phrase} : IsTerm tokens phrase → IsSum tokens phrase
  | sum {left right : List Token} {operator : Token} {a b : Phrase} :
      IsSum left a → (operator.kind = .plus ∨ operator.kind = .minus) → IsTerm right b →
      IsSum (left ++ operator :: right) (operation operator a b)

end

/-- A sum, or a repetition count, blanks, and a list that begins with an operand. -/
inductive IsList : List Token → Phrase → Prop where
  | body {first : Token} {rest : List Token} {phrase : Phrase} : IsSum (first :: rest) phrase →
      IsList (first :: rest) (.node .list [] first.position [phrase])
  | repeated {count first : Token} {rest : List Token} {list : Phrase} : count.kind = .number →
      first.spaced = true → first.kind = .number ∨ first.kind = .roll ∨ first.kind = .openParen →
      IsList (first :: rest) list →
      IsList (count :: first :: rest)
        (.node .list count.text count.position
          [.node .integer count.text count.position [], list])

inductive AreLists : List Token → List Phrase → Prop where
  | single {tokens : List Token} {list : Phrase} : IsList tokens list → AreLists tokens [list]
  | more {tokens others : List Token} {comma : Token} {list : Phrase} {lists : List Phrase} :
      IsList tokens list → comma.kind = .comma → AreLists others lists →
      AreLists (tokens ++ comma :: others) (list :: lists)

/-- Lists with commas between them, as one phrase. -/
inductive IsSequence : List Token → Phrase → Prop where
  | lists {first : Token} {rest : List Token} {lists : List Phrase} :
      AreLists (first :: rest) lists →
      IsSequence (first :: rest) (.node .sequence [] first.position lists)

end DiceFormula.Grammar
