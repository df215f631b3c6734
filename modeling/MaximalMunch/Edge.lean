import MaximalMunch.Range

/-!
# Edges

An `Edge` is a transition of an automaton: a range of code points and the number of the state it leads to.
-/

namespace MaximalMunch

/-- A transition over each code point of a range. -/
structure Edge extends Range where
  target : Nat
  deriving DecidableEq, Repr

namespace Edge

/-- The edge over a range of code points. -/
def ofRange (r : Range) (target : Nat) : Edge := { r with target }

/-- The edge with its target renamed. -/
def rename (f : Nat → Nat) (e : Edge) : Edge := { e with target := f e.target }

end Edge

end MaximalMunch
