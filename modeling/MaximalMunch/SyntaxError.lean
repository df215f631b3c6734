/-!
# Syntax errors

Why a text is no pattern, and the number of its characters read when this was found. The end of the text
counts as one character.
-/

namespace MaximalMunch

namespace SyntaxError

/-- What is wrong with a pattern. -/
inductive Kind where
  /-- A character that no token begins with. -/
  | unrecognizedCharacter
  /-- A character class without its closing bracket. -/
  | unfinishedClass
  /-- A group without its closing parenthesis. -/
  | unfinishedGroup
  /-- A bound that is too large, or a least number above the greatest. -/
  | invalidRepeat
  /-- A repeat specifier that holds something else than bounds. -/
  | unfinishedRepeat
  /-- A range of a class that ends before it begins. -/
  | invalidRange
  /-- More open groups than a pattern may have. -/
  | nestingTooDeep
  deriving DecidableEq, Repr

def Kind.message : Kind → String
  | unrecognizedCharacter => "unrecognized character"
  | unfinishedClass => "unfinished characters class"
  | unfinishedGroup => "unfinished parenthesis"
  | invalidRepeat => "invalid repeat sequence"
  | unfinishedRepeat => "expected end of repeat specifier"
  | invalidRange => "invalid characters range"
  | nestingTooDeep => "parenthesis nested too deeply"

end SyntaxError

/-- A malformed pattern. -/
structure SyntaxError where
  kind : SyntaxError.Kind
  position : Nat
  deriving DecidableEq, Repr

namespace SyntaxError

def message (e : SyntaxError) : String :=
  s!"{e.kind.message} at position {e.position}"

/-! ## Results of reading -/

theorem map_eq_ok_iff {α β : Type} {f : α → β} {x : Except SyntaxError α} {b : β} :
    x.map f = .ok b ↔ ∃ a, x = .ok a ∧ f a = b := by
  cases x <;> simp [Except.map]

theorem map_eq_error_iff {α β : Type} {f : α → β} {x : Except SyntaxError α} {e : SyntaxError} :
    x.map f = .error e ↔ x = .error e := by
  cases x <;> simp [Except.map]

end SyntaxError

end MaximalMunch
