import MaximalMunch.Range
import MaximalMunch.Text.Escaped

/-!
# Displayed ranges

The text of a range in diagrams: one end if both are equal, else both with a hyphen between them. An end is
written as an escaped character, or as `EOF` if it is no character.
-/

namespace MaximalMunch

namespace Range

/-- The text of one end of a range. -/
def displayEnd (p : Int) : List Char :=
  match CodePoint.toChar? p with
  | some c => Text.escapedChar c
  | none => ['E', 'O', 'F']

def display (r : Range) : String :=
  if r.lo = r.hi then String.ofList (displayEnd r.lo)
  else String.ofList (displayEnd r.lo ++ '-' :: displayEnd r.hi)

end Range

end MaximalMunch
