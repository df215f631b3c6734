import MaximalMunch.Compiler.Error
import MaximalMunch.Matcher
import MaximalMunch.NFA.Powerset
import MaximalMunch.Pattern.Parser
import MaximalMunch.Tree.Lowering
import MaximalMunch.Tree.Size

/-!
# Compilers

A `Compiler` collects patterns with their values in one automaton and makes a matcher of it.

- `Compiler.add`, `Compiler.addAll` : add patterns
- `Compiler.addEndOfText`           : a value for the end of the text
- `Compiler.compile`                : the matcher

Each pattern has states of its own: an entry behind a silent edge from the start, the states of its tree,
and a state that accepts its value. A pattern that would make the automaton too large is refused before
anything is added.
-/

namespace MaximalMunch

/-- A collection of patterns of one dialect. -/
structure Compiler (V : Type) where
  dialect : Dialect
  automaton : NFA V
  patternCount : Nat := 0

namespace Compiler

variable {V : Type}

/-- The state in which all patterns begin. -/
def start : Nat := 0

/-- How many states the automaton of a compiler may have when a pattern has been added: `2 ^ 20`. -/
@[irreducible] def maxStates : Nat := 0x100000

/-- A compiler without patterns. -/
def new (d : Dialect) : Compiler V := { dialect := d, automaton := NFA.empty.addEmpty }

/-- There is room for a tree, an entry and an accepting state. -/
def fits (c : Compiler V) (t : Tree) : Bool :=
  match t.size?.bind (Word.add? · (c.automaton.size + 2)) with
  | some total => decide (total ≤ maxStates)
  | none => false

/-- Add a tree and its value. -/
def insert (c : Compiler V) (t : Tree) (value : V) : Compiler V :=
  let entry := c.automaton.size
  let (n, last) := t.lower (c.automaton.addEmpty.addSilent start entry) entry
  -- The value gets a state that nothing leads out of, behind the last state of the tree.
  let accept := n.size
  { c with
    automaton := (n.addValue value).addSilent last accept
    patternCount := c.patternCount + 1 }

/-- Add a pattern. The compiler is answered with the error, if there is one. -/
def add (c : Compiler V) (pattern : String) (value : V) : Compiler V × Option (CompileError V) :=
  match c.dialect.parse pattern with
  | .error e => (c, some (.malformed e))
  | .ok t => if c.fits t then (c.insert t value, none) else (c, some (.tooLarge maxStates))

/-- Add patterns up to the first failure. What was added before it stays. -/
def addAll (c : Compiler V) : List (String × V) → Compiler V × Option (CompileError V)
  | [] => (c, none)
  | (pattern, value) :: ps =>
    match c.add pattern value with
    | (c, some e) => (c, some e)
    | (c, none) => addAll c ps

/-- Add a value for the end of the text. -/
def addEndOfText (c : Compiler V) (value : V) : Compiler V :=
  let accept := c.automaton.size
  { c with
    automaton := (c.automaton.addValue value).addEdge start (.point CodePoint.endMark) accept }

/-- The matcher of all patterns. -/
def compile [DecidableEq V] (c : Compiler V) : Except (CompileError V) (Matcher V) :=
  match c.automaton.determinize start with
  | .ok d => .ok { automaton := d }
  | .error (.collision values) => .error (.ambiguous values)
  | .error (.overlap o) => .error (.overlap o)

end Compiler

end MaximalMunch
