import MaximalMunch.Text.Combining
import MaximalMunch.Text.Escaped
import MaximalMunch.Text.Unprintable

/-!
# Quoted text

A text between double quotes, as it stands in messages and diagrams. Double quotes, backslashes, line ends,
tabs and the zero character have short escapes; a character that would not show on its own has a code
escape; every other character, the single quote among them, stands for itself.
-/

namespace MaximalMunch

namespace Text

/-- The form of one character inside a quoted text. -/
def quotedChar (c : Char) : List Char :=
  match c with
  | '"' => ['\\', '"']
  | '\\' => ['\\', '\\']
  | '\n' => ['\\', 'n']
  | '\r' => ['\\', 'r']
  | '\t' => ['\\', 't']
  | '\x00' => ['\\', '0']
  | _ => if isCombining c || isUnprintable c then codeEscape c else [c]

/-- A text in double quotes. -/
def quoted (s : String) : String :=
  String.ofList ('"' :: s.toList.flatMap quotedChar ++ ['"'])

end Text

end MaximalMunch
