import DiceFormula.Bytes
import DiceFormula.Word

/-!
# Decimal numerals

Writing puts the shortest numeral with an optional minus sign. Reading is more generous: it skips
leading blanks, takes one sign of either kind and any number of leading zeros, but refuses a numeral
outside the signed 64-bit range or followed by anything else.
-/

namespace DiceFormula.Decimal

/-! ## Writing -/

def ofNat (n : Nat) : Bytes :=
  if n < 10 then [ascii '0' + n.toUInt8] else ofNat (n / 10) ++ [ascii '0' + (n % 10).toUInt8]

def ofInt (i : Int) : Bytes :=
  if i < 0 then ascii '-' :: ofNat i.natAbs else ofNat i.natAbs

/-! ## Reading -/

def digitValue (b : UInt8) : Nat :=
  b.toNat - (ascii '0').toNat

def valueOf (digits : Bytes) : Nat :=
  digits.foldl (fun n b => 10 * n + digitValue b) 0

/-- Why a text is not a numeral of the signed 64-bit range. -/
inductive Refusal where
  | malformed
  | tooLarge
  deriving DecidableEq, Repr

/-- A sign taken off the front of a text: whether it was a minus sign, and what follows it. -/
def splitSign : Bytes → Bool × Bytes
  | [] => (false, [])
  | b :: rest =>
      if b == ascii '-' then (true, rest)
      else if b == ascii '+' then (false, rest)
      else (false, b :: rest)

/-- Read a numeral. A number that does not fit is refused as too large even where something else
follows it. -/
def read (text : Bytes) : Except Refusal Int :=
  let (negative, unsigned) := splitSign (text.dropWhile isBlank)
  let digits := unsigned.takeWhile isDigit
  let magnitude : Int := valueOf digits
  let value := if negative then -magnitude else magnitude
  if digits.isEmpty then .error .malformed
  else if ¬ Word.Fits value then .error .tooLarge
  else if digits.length < unsigned.length then .error .malformed
  else .ok value

end DiceFormula.Decimal
