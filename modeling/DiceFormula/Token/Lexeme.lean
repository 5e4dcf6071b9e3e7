import DiceFormula.Token

/-!
# Lexemes

The written forms of tokens, and what it means to cut a text into lexemes, each of them as long as
it can be, or to get stuck on the way. Nothing here says how the cuts are found.
-/

namespace DiceFormula

inductive Lexeme : Kind → Bytes → Prop where
  | plus : Lexeme .plus (bytes "+")
  | minus : Lexeme .minus (bytes "-")
  | star : Lexeme .star (bytes "*")
  | slash : Lexeme .slash (bytes "/")
  | openParen : Lexeme .openParen (bytes "(")
  | closeParen : Lexeme .closeParen (bytes ")")
  | comma : Lexeme .comma (bytes ",")
  | number {digits : Bytes} : digits ≠ [] → (∀ b ∈ digits, isDigit b) → Lexeme .number digits
  | sided {count sides : Bytes} {d : UInt8} :
      (∀ b ∈ count, isDigit b) → lower d = ascii 'd' → sides ≠ [] → (∀ b ∈ sides, isDigit b) →
      Lexeme .roll (count ++ d :: sides)
  | fudge {count : Bytes} {d f : UInt8} :
      (∀ b ∈ count, isDigit b) → lower d = ascii 'd' → lower f = ascii 'f' →
      Lexeme .roll (count ++ [d, f])
  | directive {first second : UInt8} {amount : Bytes} :
      (lower first = ascii 'k' ∨ lower first = ascii 'd') →
      (lower second = ascii 'h' ∨ lower second = ascii 'l') →
      amount ≠ [] → (∀ b ∈ amount, isDigit b) → Lexeme .directive (first :: second :: amount)

/-- A lexeme stands in front of a text, and no longer one does. -/
structure Lexeme.Longest (kind : Kind) (lexeme text : Bytes) : Prop where
  isLexeme : Lexeme kind lexeme
  inFront : lexeme <+: text
  longest : ∀ kind' longer, Lexeme kind' longer → longer <+: text → longer.length ≤ lexeme.length

/-- A text, whose first byte has the given position, consists of the longest lexemes of the given
tokens and of blanks between them. -/
inductive Tokenized : Nat → Bytes → List Token → Prop where
  | finish {position : Nat} {gap : Bytes} : (∀ b ∈ gap, isBlank b) →
      Tokenized position gap [.endMark (position + gap.length)]
  | token {position : Nat} {gap lexeme rest : Bytes} {kind : Kind} {tokens : List Token} :
      (∀ b ∈ gap, isBlank b) → Lexeme.Longest kind lexeme (lexeme ++ rest) →
      Tokenized (position + gap.length + lexeme.length) rest tokens →
      Tokenized position (gap ++ (lexeme ++ rest))
        ({ kind := kind, text := lexeme, position := position + gap.length,
           spaced := !gap.isEmpty } :: tokens)

/-! ## Texts that are not tokenized -/

def Lexeme.NoneInFront (text : Bytes) : Prop :=
  ∀ kind lexeme, Lexeme kind lexeme → ¬ lexeme <+: text

/-- Cutting longest lexemes off a text, whose first byte has the given position, gets stuck: behind
some of them, and behind blanks, a rest begins with another byte and with no lexeme. The position of
this rest and the rest are given last. -/
inductive Blocked : Nat → Bytes → Nat → Bytes → Prop where
  | here {position : Nat} {gap rest : Bytes} {b : UInt8} : (∀ b ∈ gap, isBlank b) →
      isBlank b = false → Lexeme.NoneInFront (b :: rest) →
      Blocked position (gap ++ b :: rest) (position + gap.length) (b :: rest)
  | later {position stop : Nat} {gap lexeme rest left : Bytes} {kind : Kind} :
      (∀ b ∈ gap, isBlank b) → Lexeme.Longest kind lexeme (lexeme ++ rest) →
      Blocked (position + gap.length + lexeme.length) rest stop left →
      Blocked position (gap ++ (lexeme ++ rest)) stop left

/-- How far a text without a lexeme in front is still read: over both letters of a directive whose
amount is missing. -/
def faultOffset : Bytes → Nat
  | first :: second :: _ =>
      if (lower first = ascii 'k' ∨ lower first = ascii 'd') ∧
          (lower second = ascii 'h' ∨ lower second = ascii 'l') then 2
      else 0
  | _ => 0

/-! ## Where tokens stand -/

def Token.stop (token : Token) : Nat :=
  token.position + token.text.length

/-- Tokens behind a position stand one behind the other, and exactly those with a gap in front are
marked, the end mark apart. -/
def InOrder : Nat → List Token → Prop
  | _, [] => True
  | stop, token :: rest =>
      stop ≤ token.position ∧
        (token.spaced = true ↔ stop < token.position ∧ token.kind ≠ .finish) ∧
        InOrder token.stop rest

/-- How tokens lie in the text, whose first byte has the given position. -/
structure Layout (position : Nat) (text : Bytes) (tokens : List Token) : Prop where
  /-- The end mark stands behind the last byte, and nowhere else. -/
  ended : ∃ front, tokens = front ++ [.endMark (position + text.length)] ∧
    ∀ token ∈ front, token.kind ≠ .finish
  /-- A token is the part of the text at its position. -/
  inText : ∀ token ∈ tokens, ∃ front back, text = front ++ (token.text ++ back) ∧
    token.position = position + front.length
  inOrder : InOrder position tokens
  /-- Every byte of no token is a blank. -/
  blanks : ∀ (index : Nat) (b : UInt8), text[index]? = some b → isBlank b = true ∨
    ∃ token ∈ tokens, token.position ≤ position + index ∧ position + index < token.stop

end DiceFormula
