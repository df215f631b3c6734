/-!
# Matches

What a scanner finds: the value of the pattern and the characters it captured. Only a pattern that
accepts the empty text, or the end of the text, captures nothing.
-/

namespace MaximalMunch

/-- A value and the text that it was found for. -/
structure Match (V : Type) where
  value : V
  capture : String
  deriving DecidableEq, Repr

namespace Match

variable {V : Type}

/-- The number of captured characters. -/
def length (m : Match V) : Nat := m.capture.length

def isEmpty (m : Match V) : Bool := m.capture.isEmpty

end Match

end MaximalMunch
