import MaximalMunch.Compiler.Basic

/-!
# Events

What a compiler reports of its work. Failures are not reported.

- `Event`                   : one report, and `Event.text`, its wording
- `Compiler.addedEvent`     : the report of a compiler that a pattern has been added to
- `Compiler.addAllEvents`   : the reports of `Compiler.addAll`
- `Compiler.compiledEvent`  : the report of a matcher
-/

namespace MaximalMunch

/-- A step of a compiler. -/
inductive Event where
  /-- The `number`-th pattern was added to an automaton that has `states` states now. -/
  | added (dialect : Dialect) (number : Nat) (pattern : String) (states : Nat)
  | endOfText
  | compiled (patterns : Nat) (nondeterministic : Nat) (deterministic : Nat)
  deriving DecidableEq, Repr

namespace Dialect

/-- The name of a dialect in reports. -/
def title : Dialect → String
  | regex => "Regex"
  | glob => "Glob"

end Dialect

def Event.text : Event → String
  | added dialect number pattern states =>
    s!"Added {dialect.title} pattern #{number} '" ++ Text.escaped pattern ++
      s!"', NFA has {states} states"
  | endOfText => "Added end of file match"
  | compiled patterns nondeterministic deterministic =>
    s!"Compiled {patterns} patterns: {nondeterministic} NFA states, {deterministic} DFA states"

namespace Compiler

variable {V : Type}

/-- The report of a compiler whose last pattern is `pattern`. -/
def addedEvent (c : Compiler V) (pattern : String) : Event :=
  .added c.dialect c.patternCount pattern c.automaton.size

/-- The reports of adding patterns up to the first failure. -/
def addAllEvents (c : Compiler V) : List (String × V) → List Event
  | [] => []
  | (pattern, value) :: ps =>
    match c.add pattern value with
    | (_, some _) => []
    | (c, none) => c.addedEvent pattern :: addAllEvents c ps

/-- The report of a matcher. -/
def compiledEvent (c : Compiler V) (m : Matcher V) : Event :=
  .compiled c.patternCount c.automaton.size m.stateCount

end Compiler

end MaximalMunch
