/-!
# Escaped text

The written form of a character that uses printable ASCII characters only.

- `Text.codeEscape`    : `\u`, and the hexadecimal scalar value in braces
- `Text.escapedChar`   : a short escape for tab, line ends, quotes and the backslash, the character itself
  if it is another printable ASCII character, and else its code escape
- `Text.escaped`       : a text, character by character
-/

namespace MaximalMunch

namespace Text

/-- The escape that names a character by its scalar value, in lower case and without padding. -/
def codeEscape (c : Char) : List Char :=
  ['\\', 'u', '{'] ++ Nat.toDigits 16 c.toNat ++ ['}']

/-- The escaped form of one character. -/
def escapedChar (c : Char) : List Char :=
  match c with
  | '\t' => ['\\', 't']
  | '\r' => ['\\', 'r']
  | '\n' => ['\\', 'n']
  | '\'' => ['\\', '\'']
  | '"' => ['\\', '"']
  | '\\' => ['\\', '\\']
  | _ => if ' ' ≤ c ∧ c ≤ '~' then [c] else codeEscape c

/-- The escaped form of a text. -/
def escaped (s : String) : String := String.ofList (s.toList.flatMap escapedChar)

end Text

end MaximalMunch
