import MaximalMunch.DFA.Basic
import MaximalMunch.SyntaxError
import MaximalMunch.Written

/-!
# Errors of a compiler

Why a pattern was not added, or why the patterns have no matcher.
-/

namespace MaximalMunch

/-- Why there is no pattern or no matcher. -/
inductive CompileError (V : Type) where
  /-- The text is no pattern. -/
  | malformed (e : SyntaxError)
  /-- The automaton would get more states than `limit`. -/
  | tooLarge (limit : Nat)
  /-- Patterns with these different values match the same text. -/
  | ambiguous (values : List V)
  /-- The edges of a deterministic state were not in ascending order. -/
  | overlap (edges : DFA.Overlap)
  deriving DecidableEq, Repr

namespace CompileError

variable {V : Type} [Written V]

def message : CompileError V → String
  | malformed e => e.message
  | tooLarge limit => s!"pattern exceeds the limit of {limit} automaton states"
  | ambiguous values =>
    "transition collision between multiple values: " ++ String.intercalate ", " (values.map written)
  | overlap o => o.message

end CompileError

end MaximalMunch
