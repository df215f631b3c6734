import MaximalMunch.Dialect
import MaximalMunch.NFA.Powerset
import MaximalMunch.Token.Basic

/-!
# Token tables

What the code points of a pattern text mean, by dialect. A `Token.Table` lists the ranges of code points that a
token can begin with, and the characters that a backslash may precede.

- `Token.Target`          : what a row of a table leads to
- `Token.Table.regex`, `Token.Table.glob` : the two tables
- `Token.Table.automaton` : the tokens of a table as an automaton
- `Dialect.lexer`         : the deterministic automaton of a dialect

A character above `CodePoint.greatest` is in no row, so no pattern can hold one.
-/

namespace MaximalMunch

namespace Token

/-- What stands at a position of a pattern text. -/
inductive Lexeme where
  /-- The end of the text. -/
  | finish
  | plain (kind : Kind)
  /-- A backslash sequence and the character that it denotes. -/
  | escaped (char : Char)
  deriving DecidableEq, Repr

/-- What a row of a table leads to. -/
inductive Target where
  /-- The end of the text, which is read as the end mark. -/
  | finish
  /-- A token of one character. -/
  | plain (kind : Kind)
  /-- A token of one character without a meaning of its own. All such rows lead to one place. -/
  | literal
  /-- The second characters of the backslash sequences. -/
  | escape
  deriving DecidableEq, Repr

/-- The lexeme that ends with a code point of a row. -/
def Target.lexeme? : Target → Option Lexeme
  | finish => some .finish
  | plain k => some (.plain k)
  | literal => some (.plain .literal)
  | escape => none

/-- The kind of the characters of a row. -/
def Target.kind? : Target → Option Kind
  | finish => none
  | plain k => some k
  | literal => some .literal
  | escape => none

/-- The meaning of code points, and what a backslash sequence denotes by its second character. -/
structure Table where
  rows : List (Range × Target)
  escapes : List (Char × Char)

namespace Table

/-- The row of the end of a text. -/
def finish : Range × Target := (.point CodePoint.endMark, .finish)

/-- The row of the characters from `a` to `b`. -/
def span (a b : Char) (target : Target) : Range × Target :=
  (⟨CodePoint.ofChar a, CodePoint.ofChar b⟩, target)

/-- The row of a single character. -/
def one (c : Char) (target : Target) : Range × Target := span c c target

/-- The row of the characters from `a` to the end of the alphabet. -/
def onward (a : Char) (target : Target) : Range × Target :=
  (⟨CodePoint.ofChar a, CodePoint.greatest⟩, target)

/-- The backslash sequences of both dialects that denote another character. -/
def controls : List (Char × Char) := [('n', '\n'), ('r', '\r'), ('t', '\t')]

/-- Backslash sequences that denote their second character. -/
def themselves (cs : List Char) : List (Char × Char) := cs.map fun c => (c, c)

/-- The tokens of regular expressions. -/
def regex : Table where
  rows :=
    [finish,
     span '\x00' '\'' .literal,
     one '(' (.plain .groupBegin),
     one ')' (.plain .groupEnd),
     one '*' (.plain .zeroOrMore),
     one '+' (.plain .oneOrMore),
     one ',' (.plain .comma),
     one '-' (.plain .range),
     one '.' (.plain .wildcard),
     one '/' .literal,
     span '0' '9' (.plain .digit),
     span ':' '>' .literal,
     one '?' (.plain .zeroOrOne),
     span '@' 'Z' .literal,
     one '[' (.plain .classBegin),
     one '\\' .escape,
     one ']' (.plain .classEnd),
     one '^' (.plain .negate),
     span '_' 'z' .literal,
     one '{' (.plain .repeatBegin),
     one '|' (.plain .alternative),
     one '}' (.plain .repeatEnd),
     onward '~' .literal]
  escapes :=
    themselves ['(', ')', '*', '+', '-', '.', '?', '[', ']', '\\', '^', '{', '|', '}'] ++ controls

/-- The tokens of globs. -/
def glob : Table where
  rows :=
    [finish,
     span '\x00' ' ' .literal,
     one '!' (.plain .negate),
     span '"' ')' .literal,
     one '*' (.plain .zeroOrMore),
     span '+' ',' .literal,
     one '-' (.plain .range),
     span '.' '>' .literal,
     one '?' (.plain .wildcard),
     span '@' 'Z' .literal,
     one '[' (.plain .classBegin),
     one '\\' .escape,
     one ']' (.plain .classEnd),
     onward '^' .literal]
  escapes := themselves ['!', '*', '-', '?', '[', ']', '\\'] ++ controls

/-! ## The tokens as an automaton -/

/-- Accept a lexeme over one more range behind a state. The lexeme gets a state of its own. -/
def accept (n : NFA Lexeme) (source : Nat) (r : Range) (l : Lexeme) : NFA Lexeme :=
  (n.addValue l).addEdge source r n.size

/-- The state behind a backslash. -/
def backslash : Nat := 0

/-- The automaton of the backslash sequences alone. -/
def sequences (t : Table) : NFA Lexeme :=
  t.escapes.foldl (fun n e => accept n backslash (.ofChar e.1) (.escaped e.2)) NFA.empty.addEmpty

/-- The state in which all tokens begin. -/
def start (t : Table) : Nat := t.sequences.size

/-- The state of the tokens without a meaning of their own. -/
def literal (t : Table) : Nat := t.start + 1

/-- Add a row. -/
def addRow (t : Table) (n : NFA Lexeme) (row : Range × Target) : NFA Lexeme :=
  match row.2 with
  | .finish => accept n t.start row.1 .finish
  | .plain k => accept n t.start row.1 (.plain k)
  | .literal => n.addEdge t.start row.1 t.literal
  | .escape => n.addEdge t.start row.1 backslash

/-- The automaton of a table. -/
def automaton (t : Table) : NFA Lexeme :=
  t.rows.foldl t.addRow (t.sequences.addEmpty.addValue (.plain .literal))

/-- The deterministic automaton of a table; without any edge if the rows of the table collide. -/
def lexer (t : Table) : DFA Lexeme :=
  match t.automaton.determinize t.start with
  | .ok d => d
  | .error _ => { states := #[{}], start := 0 }

def regexLexer : DFA Lexeme := regex.lexer

def globLexer : DFA Lexeme := glob.lexer

end Table

end Token

namespace Dialect

/-- The token table of a dialect. -/
def table : Dialect → Token.Table
  | regex => .regex
  | glob => .glob

/-- The automaton that cuts the patterns of a dialect into tokens. -/
def lexer : Dialect → DFA Token.Lexeme
  | regex => Token.Table.regexLexer
  | glob => Token.Table.globLexer

end Dialect

end MaximalMunch
