/-!
# JSON values

- `Json.TextPart` : a piece of a string, which is a character or one code unit of 16 bits
- `Json.Value`    : a value, with the members of an object in the order of the text
- `Value.ofString`, `Value.string?` : strings that are made of characters

A string literal can name code units that are no characters, such as one half of a surrogate pair alone.
Such a string is a value, but has no text.
-/

namespace MaximalMunch

namespace Json

/-- A piece of a string. -/
inductive TextPart where
  | char (c : Char)
  /-- A code unit that the text names by its number. -/
  | unit (u : UInt16)
  deriving DecidableEq, Repr

/-- A JSON value. -/
inductive Value where
  | null
  | bool (b : Bool)
  /-- A number without fraction and exponent. -/
  | integer (negative : Bool) (magnitude : Nat)
  /-- A number with a fraction or an exponent, as it is written. -/
  | decimal (literal : List Char)
  | text (parts : List TextPart)
  | array (elements : List Value)
  | object (members : List (List TextPart × Value))
  deriving Repr

/-- The first half of a surrogate pair. -/
def isLeading (u : UInt16) : Bool := decide (0xD800 ≤ u ∧ u ≤ 0xDBFF)

/-- The second half of a surrogate pair. -/
def isTrailing (u : UInt16) : Bool := decide (0xDC00 ≤ u ∧ u ≤ 0xDFFF)

/-- The character of a surrogate pair. -/
def joinPair (leading trailing : UInt16) : Char :=
  Char.ofNat (0x10000 + (leading.toNat - 0xD800) * 0x400 + (trailing.toNat - 0xDC00))

/-- The characters of a string. Halves of surrogate pairs must come together. -/
def characters? : List TextPart → Option (List Char)
  | [] => some []
  | .char c :: ps => (characters? ps).map (c :: ·)
  | .unit u :: .unit v :: ps =>
    if isLeading u then
      if isTrailing v then (characters? ps).map (joinPair u v :: ·) else none
    else if isTrailing u then none
    else (characters? (.unit v :: ps)).map (Char.ofNat u.toNat :: ·)
  | .unit u :: ps =>
    if isLeading u || isTrailing u then none else (characters? ps).map (Char.ofNat u.toNat :: ·)

/-- The parts of a text. -/
def partsOf (s : String) : List TextPart := s.toList.map .char

/-- The text of a string, if it has one. -/
def string? (parts : List TextPart) : Option String := (characters? parts).map String.ofList

namespace Value

def ofString (s : String) : Value := text (partsOf s)

def string? : Value → Option String
  | text parts => Json.string? parts
  | _ => none

end Value

end Json

end MaximalMunch
