import DiceFormula.Fault
import DiceFormula.Token

/-!
# Reading tokens

`Lexer.scan` cuts a text into tokens, each as long as it can be. It also returns the part of the
text that it has not used up, which is nothing after a success; scanning can be taken up again there
after a complaint.
-/

namespace DiceFormula.Lexer

/-! ## The first token of a text -/

def digitCount (text : Bytes) : Nat :=
  (text.takeWhile isDigit).length

/-- The length of the sides of a roll, `dN` or `dF`, or zero where no sides stand in front. -/
def sidesLength : Bytes → Nat
  | d :: b :: rest =>
      if lower d != ascii 'd' then 0
      else if lower b == ascii 'f' then 2
      else if isDigit b then 1 + digitCount (b :: rest)
      else 0
  | _ => 0

def singleByte? (b : UInt8) : Option Kind :=
  if b == ascii '+' then some .plus
  else if b == ascii '-' then some .minus
  else if b == ascii '*' then some .star
  else if b == ascii '/' then some .slash
  else if b == ascii '(' then some .openParen
  else if b == ascii ')' then some .closeParen
  else if b == ascii ',' then some .comma
  else none

def isDirectiveStart (first second : UInt8) : Bool :=
  (lower first == ascii 'k' || lower first == ascii 'd') &&
    (lower second == ascii 'h' || lower second == ascii 'l')

/-- Digits in front, and the sides of a roll if they follow at once. -/
def numberOrRoll (text : Bytes) : Kind × Nat :=
  let count := digitCount text
  match sidesLength (text.drop count) with
  | 0 => (.number, count)
  | sides => (.roll, count + sides)

def word (text : Bytes) : Except Complaint Kind × Nat :=
  match sidesLength text, text with
  | 0, first :: second :: rest =>
      if isDirectiveStart first second then
        match digitCount rest with
        | 0 => (.error .missingAmount, 2)
        | amount => (.ok .directive, 2 + amount)
      else (.error .unknownWord, 0)
  | 0, _ => (.error .unknownWord, 0)
  | sides, _ => (.ok .roll, sides)

/-- The kind of the token that a text begins with, and the number of bytes that are used up for it
or before the complaint. -/
def first (b : UInt8) (rest : Bytes) : Except Complaint Kind × Nat :=
  match singleByte? b with
  | some kind => (.ok kind, 1)
  | none =>
      if isDigit b then
        let (kind, length) := numberOrRoll (b :: rest)
        (.ok kind, length)
      else if isLetter b then word (b :: rest)
      else (.error (.illegalByte b), 0)

/-! ## One step -/

inductive Step where
  /-- Blanks at most, up to the given position. -/
  | blank (position : Nat)
  | token (token : Token) (rest : Bytes)
  | fault (fault : ReadingFault) (rest : Bytes)
  deriving DecidableEq, Repr

/-- Skip blanks and look at the token behind them. -/
def step (position : Nat) (text : Bytes) : Step :=
  let gap := (text.takeWhile isBlank).length
  let start := position + gap
  match text.dropWhile isBlank with
  | [] => .blank start
  | b :: rest =>
      match first b rest with
      | (.ok kind, length) =>
          .token
            { kind := kind, text := (b :: rest).take length, position := start, spaced := gap != 0 }
            ((b :: rest).drop length)
      | (.error complaint, length) =>
          .fault { complaint := complaint, position := start + length } ((b :: rest).drop length)

/-- A kind is only found by using up bytes. -/
theorem first_length_pos {b : UInt8} {rest : Bytes} {kind : Kind} {length : Nat}
    (h : first b rest = (.ok kind, length)) : 0 < length := by
  unfold first at h
  split at h
  · grind
  · split at h
    · rename_i hd
      have hc : 0 < digitCount (b :: rest) := by simp [digitCount, hd]
      simp only [numberOrRoll] at h
      split at h <;> grind
    · split at h
      · unfold word at h
        split at h
        · split at h
          · split at h <;> grind
          · grind
        · grind
        · grind
      · grind

theorem step_rest_length {position : Nat} {text : Bytes} {token : Token} {rest : Bytes}
    (h : step position text = .token token rest) : rest.length < text.length := by
  have hs := (List.dropWhile_suffix (l := text) isBlank).length_le
  unfold step at h
  simp only at h
  split at h
  · grind
  · rename_i b tail ht
    split at h
    · rename_i kind length hf
      have := first_length_pos hf
      obtain ⟨-, rfl⟩ := by simpa using h
      rw [ht] at hs
      simp only [List.length_drop, List.length_cons] at *
      omega
    · grind

/-! ## All tokens -/

/-- The tokens of a text whose first byte has the given position, and the unused rest. -/
def scan (position : Nat) (text : Bytes) : Except ReadingFault (List Token) × Bytes :=
  match h : step position text with
  | .blank stop => (.ok [.endMark stop], [])
  | .fault fault rest => (.error fault, rest)
  | .token token rest =>
      have := step_rest_length h
      let (tokens, unused) := scan (token.position + token.text.length) rest
      (tokens.map (token :: ·), unused)
termination_by text.length

theorem scan_eq (position : Nat) (text : Bytes) :
    scan position text =
      match step position text with
      | .blank stop => (.ok [.endMark stop], [])
      | .fault fault rest => (.error fault, rest)
      | .token token rest =>
          ((scan (token.position + token.text.length) rest).1.map (token :: ·),
            (scan (token.position + token.text.length) rest).2) := by
  rw [scan]
  split <;> simp_all

/-! ## Scanning again -/

structure Cursor where
  position : Nat
  text : Bytes
  deriving DecidableEq, Repr

/-- Scan from a place, and go to the place where scanning stopped. -/
def Cursor.scan (cursor : Cursor) : Except ReadingFault (List Token) × Cursor :=
  let (tokens, unused) := Lexer.scan cursor.position cursor.text
  (tokens,
    { position := cursor.position + (cursor.text.length - unused.length), text := unused })

end DiceFormula.Lexer
