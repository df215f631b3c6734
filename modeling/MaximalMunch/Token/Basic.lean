/-!
# Tokens

A pattern text is read as a chain of tokens. Each token has a kind, the character it denotes, and the
number of characters of the text up to and including it.

- `Token.Kind` : what a character may mean in a pattern; not every dialect uses every kind
- `Tokens`     : the chain. It ends with the end of the text, or where the text is no token
-/

namespace MaximalMunch

namespace Token

/-- What a token may mean. Where a meaning is out of place the token stands for its character. -/
inductive Kind where
  | alternative
  | classBegin
  | classEnd
  | comma
  | digit
  /-- A backslash and the character behind it. -/
  | escape
  | groupBegin
  | groupEnd
  | literal
  | negate
  | oneOrMore
  /-- The sign between the ends of a range. -/
  | range
  | repeatBegin
  | repeatEnd
  | wildcard
  | zeroOrMore
  | zeroOrOne
  deriving DecidableEq, Repr

end Token

/-- The tokens of a pattern text. -/
inductive Tokens where
  /-- A token, the position behind it, and the tokens that follow. -/
  | token (kind : Token.Kind) (char : Char) (position : Nat) (rest : Tokens)
  /-- The end of the text, which counts as one character of the position. -/
  | ended (position : Nat)
  /-- What follows the position is no token. -/
  | failed (position : Nat)
  deriving DecidableEq, Repr

namespace Tokens

/-- The number of tokens before the end. -/
def length : Tokens → Nat
  | token _ _ _ rest => rest.length + 1
  | ended _ => 0
  | failed _ => 0

/-- The position behind the first token. -/
def position : Tokens → Nat
  | token _ _ p _ => p
  | ended p => p
  | failed p => p

end Tokens

end MaximalMunch
