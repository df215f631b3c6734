import MaximalMunch.Compiler.Basic

/-!
# Pattern sets

The description of a matcher: a dialect, patterns with their values, and perhaps a value for the end of the
text.
-/

namespace MaximalMunch

/-- A pattern text and the value that a match of it yields. -/
structure Pattern (V : Type) where
  text : String
  value : V
  deriving DecidableEq, Repr

/-- The text of a pattern in printable characters. -/
def Pattern.display {V : Type} (p : Pattern V) : String := Text.escaped p.text

/-- The patterns of a matcher. -/
structure PatternSet (V : Type) where
  dialect : Dialect := .regex
  patterns : List (Pattern V) := []
  endOfText : Option V := none
  deriving DecidableEq, Repr

namespace PatternSet

variable {V : Type}

/-- A compiler with all patterns added. -/
def compiler (s : PatternSet V) : Except (CompileError V) (Compiler V) :=
  match (Compiler.new s.dialect).addAll (s.patterns.map fun p => (p.text, p.value)) with
  | (_, some e) => .error e
  | (c, none) =>
    match s.endOfText with
    | some v => .ok (c.addEndOfText v)
    | none => .ok c

/-- The matcher of a set. -/
def compile [DecidableEq V] (s : PatternSet V) : Except (CompileError V) (Matcher V) :=
  match s.compiler with
  | .error e => .error e
  | .ok c => c.compile

end PatternSet

end MaximalMunch
