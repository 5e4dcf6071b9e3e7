/-!
# Byte strings

Dice formulas, reports and messages are strings of bytes, and a position in a text is a number of
bytes. Character classes and case folding know ASCII only; every other byte belongs to no class and
is its own lower case.
-/

namespace DiceFormula

/-- A text, byte by byte. It need not be valid UTF-8. -/
abbrev Bytes := List UInt8

/-- The UTF-8 encoding of a literal. -/
def bytes (s : String) : Bytes :=
  s.toList.flatMap String.utf8EncodeChar

theorem bytes_append (s t : String) : bytes (s ++ t) = bytes s ++ bytes t := by
  rw [bytes, String.toList_append, List.flatMap_append]
  rfl

def ascii (c : Char) : UInt8 :=
  c.toUInt8

/-! ## Classes of bytes -/

def isDigit (b : UInt8) : Bool :=
  ascii '0' ≤ b && b ≤ ascii '9'

def isUpper (b : UInt8) : Bool :=
  ascii 'A' ≤ b && b ≤ ascii 'Z'

def isLower (b : UInt8) : Bool :=
  ascii 'a' ≤ b && b ≤ ascii 'z'

def isLetter (b : UInt8) : Bool :=
  isUpper b || isLower b

/-- Space and the five control characters from tab to carriage return separate tokens. -/
def isBlank (b : UInt8) : Bool :=
  b == ascii ' ' || (9 ≤ b && b ≤ 13)

/-- The lower case of an ASCII letter; every other byte is left as it is. -/
def lower (b : UInt8) : UInt8 :=
  if isUpper b then b + 32 else b

/-! ## Joining -/

def joinWith (separator : Bytes) : List Bytes → Bytes
  | [] => []
  | [part] => part
  | part :: next :: rest => part ++ separator ++ joinWith separator (next :: rest)

@[simp] theorem joinWith_nil (separator : Bytes) : joinWith separator [] = [] := rfl

@[simp] theorem joinWith_singleton (separator part : Bytes) : joinWith separator [part] = part := rfl

theorem joinWith_cons_cons (separator part next : Bytes) (rest : List Bytes) :
    joinWith separator (part :: next :: rest) =
      part ++ separator ++ joinWith separator (next :: rest) := rfl

/-- Behind the first part, each part has a separator in front. -/
theorem joinWith_cons (separator part : Bytes) (rest : List Bytes) :
    joinWith separator (part :: rest) = part ++ rest.flatMap (separator ++ ·) := by
  induction rest generalizing part with
  | nil => exact (List.append_nil part).symm
  | cons next rest ih =>
    rw [joinWith_cons_cons, ih, List.flatMap_cons, List.append_assoc, List.append_assoc]

/-- A text as it is shown by a reader that stops at the first NUL byte. -/
def untilNul (text : Bytes) : Bytes :=
  text.takeWhile (· != 0)

end DiceFormula
