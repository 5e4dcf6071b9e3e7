import DiceFormula.Bytes

/-!
# Tokens

A formula is read as a list of tokens that ends with one end mark. Blanks between tokens leave no
token of their own, but a token remembers whether blanks stood in front of it, since `2 d6` and
`2d6`, and `1 -2` and `1 - 2`, are read differently.
-/

namespace DiceFormula

/-- The kinds of tokens. A roll is written `3d6`, `d20` or `4dF`; a directive `kh2`, `kl1`, `dh1` or
`dl1`; both in either letter case. -/
inductive Kind where
  | number
  | roll
  | directive
  | plus
  | minus
  | star
  | slash
  | openParen
  | closeParen
  | comma
  | finish
  deriving DecidableEq, Repr, Inhabited

structure Token where
  kind : Kind
  text : Bytes
  position : Nat
  spaced : Bool := false
  deriving DecidableEq, Repr, Inhabited

/-- The end mark, which stands behind the last byte. -/
def Token.endMark (position : Nat) : Token :=
  { kind := .finish, text := [], position := position }

end DiceFormula
