import MaximalMunch.Json.Basic

/-!
# JSON literals

Strings and numbers as they are written.

- `Json.isBlank`       : blanks, line ends and tabs
- `Json.literal`       : a string literal. Quotation marks, backslashes and control characters are escaped
- `Json.literalBody`   : reads a string literal from behind its opening quotation mark
- `Json.number`        : reads a number
-/

namespace MaximalMunch

namespace Json

/-- A character that may stand between the parts of a value. -/
def isBlank (c : Char) : Bool := c = ' ' || c = '\n' || c = '\r' || c = '\t'

/-! ## Writing -/

/-- The escape of a code unit, padded to four digits. -/
def unitEscape (n : Nat) : List Char :=
  let digits := Nat.toDigits 16 n
  ['\\', 'u'] ++ List.replicate (4 - digits.length) '0' ++ digits

/-- A character inside a string literal. -/
def literalChar (c : Char) : List Char :=
  match c with
  | '"' => ['\\', '"']
  | '\\' => ['\\', '\\']
  | '\x08' => ['\\', 'b']
  | '\x0c' => ['\\', 'f']
  | '\n' => ['\\', 'n']
  | '\r' => ['\\', 'r']
  | '\t' => ['\\', 't']
  | _ => if c < ' ' then unitEscape c.toNat else [c]

def literalPart : TextPart → List Char
  | .char c => literalChar c
  | .unit u => unitEscape u.toNat

/-- The literal of a string. -/
def literal (parts : List TextPart) : List Char :=
  '"' :: parts.flatMap literalPart ++ ['"']

/-- The literal of an integer. -/
def integerLiteral (negative : Bool) (magnitude : Nat) : List Char :=
  (if negative then ['-'] else []) ++ Nat.toDigits 10 magnitude

/-! ## Reading strings -/

/-- The value of a hexadecimal digit. -/
def hexDigit? (c : Char) : Option Nat :=
  if '0' ≤ c ∧ c ≤ '9' then some (c.toNat - '0'.toNat)
  else if 'a' ≤ c ∧ c ≤ 'f' then some (c.toNat - 'a'.toNat + 10)
  else if 'A' ≤ c ∧ c ≤ 'F' then some (c.toNat - 'A'.toNat + 10)
  else none

/-- The code unit of four hexadecimal digits. -/
def unit? (a b c d : Char) : Option TextPart :=
  match hexDigit? a, hexDigit? b, hexDigit? c, hexDigit? d with
  | some a, some b, some c, some d => some (.unit (UInt16.ofNat (((a * 16 + b) * 16 + c) * 16 + d)))
  | _, _, _, _ => none

/-- The character of a short escape. -/
def shortEscape? : Char → Option Char
  | '"' => some '"'
  | '\\' => some '\\'
  | '/' => some '/'
  | 'b' => some '\x08'
  | 'f' => some '\x0c'
  | 'n' => some '\n'
  | 'r' => some '\r'
  | 't' => some '\t'
  | _ => none

/-- Put a part in front of what was read. -/
def consPart (p : TextPart) (r : List TextPart × List Char) : List TextPart × List Char :=
  (p :: r.1, r.2)

/-- Read a string literal from behind its opening quotation mark: its parts and the text behind it. A control
character must not stand in a literal. -/
def literalBody : List Char → Option (List TextPart × List Char)
  | [] => none
  | '"' :: rest => some ([], rest)
  | '\\' :: 'u' :: a :: b :: c :: d :: rest =>
    match unit? a b c d with
    | none => none
    | some p => (literalBody rest).map (consPart p)
  | '\\' :: e :: rest =>
    match shortEscape? e with
    | none => none
    | some c => (literalBody rest).map (consPart (.char c))
  | c :: rest =>
    if c = '\\' ∨ c < ' ' then none else (literalBody rest).map (consPart (.char c))

/-! ## Reading numbers -/

/-- Split off the digits in front, of which there must be one. -/
def digits? (cs : List Char) : Option (List Char × List Char) :=
  match cs.takeWhile Char.isDigit with
  | [] => none
  | ds => some (ds, cs.dropWhile Char.isDigit)

/-- The digits of a whole number, which has no zeros in front. -/
def whole? (cs : List Char) : Option (List Char × List Char) :=
  match digits? cs with
  | some ('0' :: _ :: _, _) => none
  | r => r

/-- The fraction in front, if there is one, with its point. -/
def fraction? : List Char → Option (List Char × List Char)
  | '.' :: cs => (digits? cs).map fun (ds, rest) => ('.' :: ds, rest)
  | cs => some ([], cs)

/-- The sign in front, if there is one. -/
def sign : List Char → List Char × List Char
  | '+' :: cs => (['+'], cs)
  | '-' :: cs => (['-'], cs)
  | cs => ([], cs)

/-- The exponent in front, if there is one, with its letter. -/
def exponent? : List Char → Option (List Char × List Char)
  | c :: cs =>
    if c = 'e' ∨ c = 'E' then
      (digits? (sign cs).2).map fun (ds, rest) => (c :: (sign cs).1 ++ ds, rest)
    else some ([], c :: cs)
  | [] => some ([], [])

/-- Read a number behind its sign. -/
def unsigned (negative : Bool) (cs : List Char) : Option (Value × List Char) :=
  match whole? cs with
  | none => none
  | some (whole, cs) =>
    match fraction? cs with
    | none => none
    | some (fraction, cs) =>
      match exponent? cs with
      | none => none
      | some ([], rest) =>
        if fraction.isEmpty then some (.integer negative (Nat.ofDigitChars 10 whole 0), rest)
        else some (.decimal ((if negative then ['-'] else []) ++ whole ++ fraction), rest)
      | some (exponent, rest) =>
        some (.decimal ((if negative then ['-'] else []) ++ whole ++ fraction ++ exponent), rest)

/-- Read a number. -/
def number : List Char → Option (Value × List Char)
  | '-' :: cs => unsigned true cs
  | cs => unsigned false cs

end Json

end MaximalMunch
