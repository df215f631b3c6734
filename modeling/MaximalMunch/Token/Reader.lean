import MaximalMunch.Scanner.Basic
import MaximalMunch.SyntaxError
import MaximalMunch.Token.Table

/-!
# Reading tokens

`Dialect.tokens` scans a pattern text with the automaton of its dialect. A token that captures nothing is the
end of the text, so each token before it leaves less to read.

- `Token.readNext`, `Token.reads` : single reads, and so many of them
- `Tokens.ofScanner`              : the chain of all tokens of a scanner
-/

namespace MaximalMunch

namespace Token

/-- What one read hands out: a kind, none for the end of the text, and the character that is denoted. -/
structure Item where
  kind : Option Kind
  char : Option Char
  deriving DecidableEq

/-- The item of a lexeme that has been found. Only a backslash sequence denotes another character than its
first one. -/
def Item.ofMatch (m : Match Lexeme) : Item :=
  match m.value with
  | .finish => ⟨none, m.capture.toList.head?⟩
  | .plain k => ⟨some k, m.capture.toList.head?⟩
  | .escaped x => ⟨some .escape, some x⟩

/-- Read one token. -/
def readNext (s : Scanner Lexeme) : Except SyntaxError Item × Scanner Lexeme :=
  match s.tryNext with
  | (none, s') => (.error ⟨.unrecognizedCharacter, s'.position⟩, s')
  | (some m, s') => (.ok (.ofMatch m), s')

/-- The answers of `k` reads, one after another, each with the position behind it. -/
def reads (s : Scanner Lexeme) : Nat → List (Except SyntaxError Item × Nat)
  | 0 => []
  | k + 1 => ((readNext s).1, (readNext s).2.position) :: reads (readNext s).2 k

end Token

namespace Tokens

open Token

/-- `tryNext`, with the fact that no character is lost. -/
def lexeme (s : Scanner Lexeme) :
    { r : Option (Match Lexeme) × Scanner Lexeme //
      (r.1.elim [] fun m => m.capture.toList) ++ r.2.text = s.text } :=
  ⟨s.tryNext, s.tryNext_text⟩

/-- The tokens that a scanner finds. -/
def ofScanner (s : Scanner Lexeme) : Tokens :=
  match lexeme s with
  | ⟨(none, s'), _⟩ => failed s'.position
  | ⟨(some m, s'), _h⟩ =>
    if _hc : m.capture.toList = [] then ended s'.position
    else
      match m.value with
      | .finish => ended s'.position
      | .plain k => token k (m.capture.toList.head _hc) s'.position (ofScanner s')
      | .escaped x => token .escape x s'.position (ofScanner s')
termination_by s.text.length
decreasing_by
  all_goals
    have := List.length_pos_iff.2 _hc
    rw [← _h]
    simp only [Option.elim_some, List.length_append]
    omega

end Tokens

namespace Dialect

/-- The tokens of a pattern text. -/
def tokens (d : Dialect) (pattern : String) : Tokens :=
  .ofScanner (.ofString d.lexer pattern)

end Dialect

end MaximalMunch
