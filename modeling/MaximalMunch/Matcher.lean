import MaximalMunch.Scanner.Basic

/-!
# Matchers

A set of patterns, ready to scan texts.
-/

namespace MaximalMunch

/-- The deterministic automaton of a set of patterns. -/
structure Matcher (V : Type) where
  automaton : DFA V

namespace Matcher

variable {V : Type}

/-- The number of states. -/
def stateCount (m : Matcher V) : Nat := m.automaton.size

/-- Begin to scan a text. -/
def scan (m : Matcher V) (text : String) : Scanner V := .ofString m.automaton text

end Matcher

end MaximalMunch
